import IoJs.URIComponent

/-!
# Escaping in query strings

`escape` of `querystring.js` makes the UTF-8 of a text by itself, from its code units, and takes the
escaped bytes from a table (`escape_utf16Encode`). `unescape` is `decodeURIComponent`, and where
that throws, `unescapeBuffer` takes the bytes as they are; it never does for what has been escaped
(`unescape_escape`).
-/

namespace IoJs.QueryString

open IoJs.Stream IoJs.RegExp IoJs.Buffer List

/-- `toUpperCase`, of digits -/
def toUpperCase (digits : JSString) : JSString :=
  digits.map fun c => if unit 'a' ≤ c ∧ c ≤ unit 'z' then c - 0x20 else c

/-- An entry of `hexTable` -/
def hexTable (i : Nat) : JSString :=
  percent :: toUpperCase ((if i < 16 then js "0" else []) ++ (Nat.toDigits 16 i).map unit)

/-- The bytes of a surrogate pair -/
def escapePair (c c' : Nat) : JSString :=
  let c := 0x10000 + (((c &&& 0x3FF) <<< 10) ||| (c' &&& 0x3FF))
  hexTable (0xF0 ||| (c >>> 18)) ++ hexTable (0x80 ||| ((c >>> 12) &&& 0x3F)) ++
    hexTable (0x80 ||| ((c >>> 6) &&& 0x3F)) ++ hexTable (0x80 ||| (c &&& 0x3F))

/-- The bytes of a code unit of the table, and of no surrogate -/
def escapeUnit (c : Nat) : JSString :=
  -- other ASCII characters
  if c < 0x80 then hexTable c
  -- multi-byte characters
  else if c < 0x800 then hexTable (0xC0 ||| (c >>> 6)) ++ hexTable (0x80 ||| (c &&& 0x3F))
  else
    hexTable (0xE0 ||| (c >>> 12)) ++ hexTable (0x80 ||| ((c >>> 6) &&& 0x3F)) ++
      hexTable (0x80 ||| (c &&& 0x3F))

/-- `QueryString.escape`, of a string -/
def escape : JSString → JSString
  | [] => []
  | c :: rest =>
    -- these characters do not need escaping
    if isUnreserved c then c :: escape rest
    else if c < 0xD800 ∨ 0xE000 ≤ c then escapeUnit c.toNat ++ escape rest
    else
      -- surrogate pair; behind the end `charCodeAt` is `NaN`
      match rest with
      | [] => escapePair c.toNat 0
      | c' :: rest => escapePair c.toNat c'.toNat ++ escape rest

/-- The states of `unescapeBuffer` -/
inductive UnescapeState where
  | CHAR
  | HEX0
  | HEX1 (n : Nat) (hexchar : UInt16)

/-- A byte that is stored in a buffer; `NaN` is 0. -/
def byteOf (c : Option UInt16) : UInt8 := (c.getD 0).toUInt8

/-- The loop of `unescapeBuffer`, over the code units and `NaN` behind them -/
def unescapeLoop (decodeSpaces : Bool) : UnescapeState → List (Option UInt16) → List UInt8
  | _, [] => []
  | .CHAR, c :: rest =>
    if c = some percent then unescapeLoop decodeSpaces .HEX0 rest
    else if c = some (unit '+') ∧ decodeSpaces then
      byteOf (unit ' ') :: unescapeLoop decodeSpaces .CHAR rest
    else byteOf c :: unescapeLoop decodeSpaces .CHAR rest
  | .HEX0, c :: rest =>
    match c.bind hex2bin with
    | some n => unescapeLoop decodeSpaces (.HEX1 n (c.getD 0)) rest
    | none => byteOf percent :: byteOf c :: unescapeLoop decodeSpaces .CHAR rest
  | .HEX1 n hexchar, c :: rest =>
    match c.bind hex2bin with
    | some m => UInt8.ofNat (16 * n + m) :: unescapeLoop decodeSpaces .CHAR rest
    | none => byteOf percent :: byteOf hexchar :: byteOf c :: unescapeLoop decodeSpaces .CHAR rest

/-- `QueryString.unescapeBuffer` -/
def unescapeBuffer (s : JSString) (decodeSpaces : Bool) : List UInt8 :=
  (unescapeLoop decodeSpaces .CHAR (s.map some ++ [none])).dropLast

/-- `QueryString.unescape`, over `toString` of a buffer -/
def unescape (toString : List UInt8 → JSString) (s : JSString) (decodeSpaces : Bool) : JSString :=
  match decodeURIComponent s with
  | some text => text
  | none => toString (unescapeBuffer s decodeSpaces)

/-! ## Escaping a text -/

/-- How `escape` writes a character -/
def escaped (c : Char) : JSString :=
  if c.toNat < 0x80 ∧ isUnreserved (UInt16.ofNat c.toNat) = true then [UInt16.ofNat c.toNat]
  else escapeChar c

theorem hexTable_eq {i : Nat} (less : i < 256) : hexTable i = percentEncode (UInt8.ofNat i) := by
  have all : ∀ i < 256, hexTable i = percentEncode (UInt8.ofNat i) := by decide +kernel
  exact all i less

theorem or_continuation (n : Nat) : 0x80 ||| (n &&& 0x3F) = n % 64 + 0x80 := by
  have all : ∀ m < 64, 0x80 ||| m = m + 0x80 := by decide
  rw [show (0x3F : Nat) = 2 ^ 6 - 1 from rfl, Nat.and_two_pow_sub_one_eq_mod]
  exact all (n % 64) (Nat.mod_lt _ (by decide))

theorem hexTable_continuation (n : Nat) :
    hexTable (0x80 ||| (n &&& 0x3F)) = percentEncode (UInt8.ofNat (n % 64 + 0x80)) := by
  rw [or_continuation]
  exact hexTable_eq (by omega)

theorem hexTable_first {mark bound n : Nat} (mark_le : mark + bound ≤ 256)
    (apart : ∀ m < bound, mark ||| m = m + mark) (less : n < bound) :
    hexTable (mark ||| n) = percentEncode (UInt8.ofNat (n % bound + mark)) := by
  rw [apart n less, hexTable_eq (by omega), Nat.mod_eq_of_lt less]

theorem escapeUnit_eq {c : Char} (small : c.toNat < 0x10000) :
    escapeUnit c.toNat = escapeChar c := by
  have value : c.val.toNat = c.toNat := rfl
  rw [escapeUnit, escapeChar, String.utf8EncodeChar]
  simp only [value, hexTable_continuation, Nat.shiftRight_eq_div_pow]
  by_cases one : c.toNat < 0x80
  · have one' : c.toNat ≤ 0x7F := by omega
    rw [if_pos one, if_pos one', hexTable_eq (by omega), flatMap_singleton]
  have one' : ¬c.toNat ≤ 0x7F := by omega
  rw [if_neg one, if_neg one']
  by_cases two : c.toNat < 0x800
  · have two' : c.toNat ≤ 0x7FF := by omega
    have first := hexTable_first (n := c.toNat / 2 ^ 6) (by decide : 0xC0 + 32 ≤ 256) (by decide)
      (by omega)
    rw [if_pos two, if_pos two', first]
    simp
  have two' : ¬c.toNat ≤ 0x7FF := by omega
  have three' : c.toNat ≤ 0xFFFF := by omega
  have first := hexTable_first (n := c.toNat / 2 ^ 12) (by decide : 0xE0 + 16 ≤ 256) (by decide)
    (by omega)
  rw [if_neg two, if_neg two', if_pos three', first]
  simp

/-- The value that `escape` makes of a surrogate and the unit behind it -/
def pairValue (c c' : Nat) : Nat := 0x10000 + (((c &&& 0x3FF) <<< 10) ||| (c' &&& 0x3FF))

theorem pairValue_eq (c c' : Nat) :
    pairValue c c' = 0x10000 + c % 2 ^ 10 * 2 ^ 10 + c' % 2 ^ 10 := by
  have less : c' % 2 ^ 10 < 2 ^ 10 := Nat.mod_lt _ (by decide)
  rw [pairValue, show (0x3FF : Nat) = 2 ^ 10 - 1 from rfl, Nat.and_two_pow_sub_one_eq_mod,
    Nat.and_two_pow_sub_one_eq_mod, ← Nat.shiftLeft_add_eq_or_of_lt less, Nat.shiftLeft_eq,
    Nat.add_assoc]

theorem toNat_pairValue (c c' : Nat) : (Char.ofNat (pairValue c c')).toNat = pairValue c c' := by
  have value := pairValue_eq c c'
  exact toNat_charOfNat (.inr (by omega))

theorem escapePair_eq (c c' : Nat) :
    escapePair c c' = escapeChar (Char.ofNat (pairValue c c')) := by
  have value : (Char.ofNat (pairValue c c')).val.toNat = pairValue c c' := toNat_pairValue c c'
  have range := pairValue_eq c c'
  rw [escapePair, escapeChar, String.utf8EncodeChar, ← pairValue]
  simp only [value, hexTable_continuation, Nat.shiftRight_eq_div_pow]
  have first := hexTable_first (n := pairValue c c' / 2 ^ 18) (by decide : 0xF0 + 8 ≤ 256)
    (by decide) (by omega)
  rw [first, if_neg (by omega), if_neg (by omega), if_neg (by omega)]
  simp

variable {c : UInt16}

theorem escape_cons_of_unreserved (unreserved : isUnreserved c = true)
    (rest : JSString) : escape (c :: rest) = c :: escape rest := by
  rw [escape.eq_def]
  exact if_pos unreserved

theorem escape_cons_of_unit (reserved : ¬isUnreserved c = true)
    (alone : c < 0xD800 ∨ 0xE000 ≤ c) (rest : JSString) :
    escape (c :: rest) = escapeUnit c.toNat ++ escape rest := by
  rw [escape.eq_def]
  exact (if_neg reserved).trans (if_pos alone)

theorem toNat_lt_of_isUnreserved (unreserved : isUnreserved c = true) : c.toNat < 0x80 := by
  simp only [isUnreserved, Bool.or_eq_true, Bool.and_eq_true, beq_iff_eq, decide_eq_true_eq,
    UInt16.le_iff_toNat_le, ← UInt16.toNat_inj] at unreserved
  simp at unreserved
  omega

theorem escape_cons_of_pair (reserved : ¬isUnreserved c = true)
    (surrogate : ¬(c < 0xD800 ∨ 0xE000 ≤ c)) (c' : UInt16) (rest : JSString) :
    escape (c :: c' :: rest) = escapePair c.toNat c'.toNat ++ escape rest := by
  exact (if_neg reserved).trans (if_neg surrogate)

theorem reserved_of_surrogate (surrogate : ¬(c < 0xD800 ∨ 0xE000 ≤ c)) :
    ¬isUnreserved c = true := by
  intro unreserved
  have ascii := toNat_lt_of_isUnreserved unreserved
  change ¬(c.toNat < 0xD800 ∨ 0xE000 ≤ c.toNat) at surrogate
  omega

/-- The text that `escape` writes: whatever stands behind a surrogate is taken for the second half
of a pair, and behind the end `charCodeAt` is `NaN`. -/
def repaired : JSString → List Char
  | [] => []
  | c :: rest =>
    if c < 0xD800 ∨ 0xE000 ≤ c then Char.ofNat c.toNat :: repaired rest
    else
      match rest with
      | [] => [Char.ofNat (pairValue c.toNat 0)]
      | c' :: rest => Char.ofNat (pairValue c.toNat c'.toNat) :: repaired rest

example : utf16Encode (repaired (0xD800 :: js "ab")) = [0xD800, 0xDC61] ++ js "b" := by decide

theorem alone_iff : c < 0xD800 ∨ 0xE000 ≤ c ↔ c.toNat < 0xD800 ∨ 0xE000 ≤ c.toNat := by
  rfl

theorem toNat_of_alone (alone : c < 0xD800 ∨ 0xE000 ≤ c) :
    (Char.ofNat c.toNat).toNat = c.toNat := by
  have less := c.toNat_lt
  rw [alone_iff] at alone
  exact toNat_charOfNat (by omega)

theorem escaped_of_alone (alone : c < 0xD800 ∨ 0xE000 ≤ c) (reserved : ¬isUnreserved c = true) :
    escaped (Char.ofNat c.toNat) = escapeUnit c.toNat := by
  have less := c.toNat_lt
  have value := toNat_of_alone alone
  have plain : ¬(c.toNat < 0x80 ∧ isUnreserved (UInt16.ofNat c.toNat) = true) := by
    rw [UInt16.ofNat_toNat]
    exact fun both => reserved both.2
  rw [escaped, value, if_neg plain, ← escapeUnit_eq (by omega), value]

theorem escaped_pairValue (first second : Nat) :
    escaped (Char.ofNat (pairValue first second)) = escapePair first second := by
  have value := pairValue_eq first second
  rw [escaped, if_neg, escapePair_eq]
  rw [toNat_pairValue]
  omega

theorem escape_eq (s : JSString) : escape s = (repaired s).flatMap escaped := by
  fun_induction repaired s with
  | case1 => rfl
  | case2 c rest alone ih =>
    rw [flatMap_cons, ← ih]
    by_cases unreserved : isUnreserved c = true
    · have ascii := toNat_lt_of_isUnreserved unreserved
      have plain : (Char.ofNat c.toNat).toNat < 0x80 ∧
          isUnreserved (UInt16.ofNat (Char.ofNat c.toNat).toNat) = true := by
        rw [toNat_of_alone alone, UInt16.ofNat_toNat]
        exact ⟨ascii, unreserved⟩
      rw [escape_cons_of_unreserved unreserved, escaped, if_pos plain, toNat_of_alone alone,
        UInt16.ofNat_toNat]
      rfl
    rw [escape_cons_of_unit unreserved alone, escaped_of_alone alone unreserved]
  | case3 c surrogate =>
    have reserved := reserved_of_surrogate surrogate
    rw [flatMap_singleton, escaped_pairValue, escape.eq_def]
    exact (if_neg reserved).trans (if_neg surrogate)
  | case4 c surrogate c' rest ih =>
    have reserved := reserved_of_surrogate surrogate
    rw [flatMap_cons, escaped_pairValue, ← ih, escape_cons_of_pair reserved surrogate]

theorem repaired_utf16EncodeChar (c : Char) (rest : JSString) :
    repaired (utf16EncodeChar c ++ rest) = c :: repaired rest := by
  have range := Char.toNat_range c
  obtain ⟨unit, eq, small, value⟩ | ⟨lead, trail, eq, large, first, second⟩ :=
    utf16EncodeChar_units c
  · have alone : unit < 0xD800 ∨ 0xE000 ≤ unit := by
      rw [alone_iff, value]
      omega
    rw [eq, singleton_append, repaired.eq_def]
    refine (if_pos alone).trans ?_
    rw [value, Char.ofNat_toNat]
  have surrogate : ¬(lead < 0xD800 ∨ 0xE000 ≤ lead) := by
    rw [alone_iff, first]
    omega
  have whole : pairValue lead.toNat trail.toNat = c.toNat := by
    rw [pairValue_eq, first, second]
    omega
  rw [eq, cons_append, singleton_append, repaired.eq_def]
  refine (if_neg surrogate).trans ?_
  simp only [whole, Char.ofNat_toNat]

theorem repaired_utf16Encode (text : List Char) : repaired (utf16Encode text) = text := by
  induction text with
  | nil => rfl
  | cons c text ih => rw [utf16Encode_cons, repaired_utf16EncodeChar, ih]

theorem utf16EncodeChar_of_alone (alone : c < 0xD800 ∨ 0xE000 ≤ c) :
    utf16EncodeChar (Char.ofNat c.toNat) = [c] := by
  rw [utf16EncodeChar, toNat_of_alone alone, if_pos c.toNat_lt, UInt16.ofNat_toNat]

/-- A string without a surrogate is taken for itself. -/
theorem utf16Encode_repaired {s : JSString} (plain : ∀ c ∈ utf16Encode (repaired s), c < 0xD800) :
    utf16Encode (repaired s) = s := by
  have paired (first second : Nat) :
      ∃ c ∈ utf16EncodeChar (Char.ofNat (pairValue first second)), ¬c < 0xD800 := by
    have value := pairValue_eq first second
    obtain ⟨unit, -, small, -⟩ | ⟨lead, trail, eq, -, lead_eq, -⟩ :=
      utf16EncodeChar_units (Char.ofNat (pairValue first second))
    · rw [toNat_pairValue] at small
      omega
    refine ⟨lead, eq ▸ mem_cons_self, ?_⟩
    rw [UInt16.lt_iff_toNat_lt, lead_eq]
    exact Nat.not_lt.mpr (Nat.le_add_right _ _)
  fun_induction repaired s with
  | case1 => rfl
  | case2 c rest alone ih =>
    rw [utf16Encode_cons, utf16EncodeChar_of_alone alone, singleton_append] at plain ⊢
    rw [ih (forall_mem_cons.mp plain).2]
  | case3 c surrogate =>
    obtain ⟨d, mem, large⟩ := paired c.toNat 0
    exact absurd (plain d (mem_append_left _ mem)) large
  | case4 c surrogate c' rest ih =>
    obtain ⟨d, mem, large⟩ := paired c.toNat c'.toNat
    exact absurd (plain d (mem_append_left _ mem)) large

theorem escape_utf16Encode (text : List Char) :
    escape (utf16Encode text) = text.flatMap escaped := by
  rw [escape_eq, repaired_utf16Encode]

theorem escaped_escaped (c : Char) : Escaped c (escaped c) := by
  rw [escaped]
  split_ifs with plain
  · refine .plain plain.1 ?_
    rintro rfl
    exact absurd plain.2 (by decide)
  · exact .escaped

theorem unescape_escape (toString : List UInt8 → JSString) (text : List Char)
    (decodeSpaces : Bool) :
    unescape toString (escape (utf16Encode text)) decodeSpaces = utf16Encode text := by
  rw [unescape, escape_utf16Encode, decodeURIComponent_escaped escaped escaped_escaped]

/-! ## What is escaped -/

/-- The characters of an escaped text -/
def isEscaped (c : UInt16) : Bool := isUnreserved c || c == percent

theorem isEscaped_percentEncode {byte : UInt8} (mem : c ∈ percentEncode byte) :
    isEscaped c = true := by
  have digit : ∀ n < 16, isEscaped (hexDigit n) = true := by decide
  have less := byte.toNat_lt
  simp only [percentEncode, mem_cons, not_mem_nil, or_false] at mem
  rcases mem with rfl | rfl | rfl
  · decide
  · exact digit _ (by omega)
  · exact digit _ (by omega)

theorem isEscaped_of_mem_escaped {d : Char} (mem : c ∈ escaped d) : isEscaped c = true := by
  rw [escaped] at mem
  split_ifs at mem with plain
  · rw [mem_singleton.mp mem, isEscaped, plain.2]
    rfl
  · obtain ⟨byte, -, mem⟩ := mem_flatMap.mp mem
    exact isEscaped_percentEncode mem

theorem isEscaped_of_mem_escape {s : JSString} (mem : c ∈ escape s) : isEscaped c = true := by
  rw [escape_eq] at mem
  obtain ⟨d, -, mem⟩ := mem_flatMap.mp mem
  exact isEscaped_of_mem_escaped mem

end IoJs.QueryString
