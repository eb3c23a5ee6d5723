import IoJs.Buffer

/-!
# Components of a URI

`encodeURIComponent` and `decodeURIComponent` of JavaScript. A text is encoded as UTF-8, and every
byte of it is escaped that is no unreserved character; `decodeURIComponent` throws where the escapes
are no UTF-8 (`none`). What has been encoded is decoded again (`decodeURIComponent_escaped`), also
where more has been escaped than is necessary.
-/

namespace IoJs

open IoJs.Stream IoJs.RegExp IoJs.Buffer List Option

def percent : UInt16 := unit '%'

/-- A hexadecimal digit, in upper case -/
def hexDigit (n : Nat) : UInt16 := if n < 10 then UInt16.ofNat (0x30 + n)
    else UInt16.ofNat (0x37 + n)

/-- A byte that is escaped -/
def percentEncode (byte : UInt8) : JSString :=
  [percent, hexDigit (byte.toNat / 16), hexDigit (byte.toNat % 16)]

/-- `uriUnreserved` -/
def isUnreserved (c : UInt16) : Bool :=
  c == 0x21 || c == 0x2D || c == 0x2E || c == 0x5F || c == 0x7E || (0x27 ≤ c && c ≤ 0x2A) ||
    (0x30 ≤ c && c ≤ 0x39) || (0x41 ≤ c && c ≤ 0x5A) || (0x61 ≤ c && c ≤ 0x7A)

def escapeChar (c : Char) : JSString := (String.utf8EncodeChar c).flatMap percentEncode

/-! ## Decoding -/

/-- An escaped byte, and what is behind it -/
def octet : JSString → Option (UInt8 × JSString)
  | p :: a :: b :: rest =>
    if p = percent then
      (hex2bin a).bind fun m => (hex2bin b).map fun n => (UInt8.ofNat (m * 16 + n), rest)
    else none
  | _ => none

/-- Escaped bytes `10xxxxxx` -/
def continuation : Nat → JSString → Option (List UInt8 × JSString)
  | 0, l => some ([], l)
  | n + 1, l =>
    (octet l).bind fun found =>
      if 0x80 ≤ found.1 ∧ found.1 < 0xC0 then
        (continuation n found.2).map fun more => (found.1 :: more.1, more.2)
      else none

/-- How many bytes come behind a first byte `11xxxxxx` -/
def following (first : UInt8) : Option Nat :=
  if first < 0xC0 then none
  else if first < 0xE0 then some 1
  else if first < 0xF0 then some 2
  else if first < 0xF8 then some 3
  else none

/-- The value of a sequence of bytes -/
def codePoint (first : UInt8) (rest : List UInt8) : Nat :=
  rest.foldl (fun value byte => value * 64 + byte.toNat % 64) (first.toNat % 2 ^ (6 - rest.length))

/-- The least value that needs as many bytes -/
def leastCodePoint : Nat → Nat
  | 1 => 0x80
  | 2 => 0x800
  | _ => 0x10000

/-- A valid sequence of bytes -/
def scalarOf (first : UInt8) (rest : List UInt8) : Option Char :=
  let value := codePoint first rest
  if leastCodePoint rest.length ≤ value ∧ (value < 0xD800 ∨ 0xDFFF < value ∧ value < 0x110000) then
    some (Char.ofNat value)
  else none

/-- A character of more than one byte -/
def decodeChar (first : UInt8) (l : JSString) : Option (Char × JSString) :=
  (following first).bind fun n =>
    (continuation n l).bind fun found => (scalarOf first found.1).map fun c => (c, found.2)

/-- The loop of `Decode`, for as many steps as there may be characters -/
def decodeFrom : Nat → JSString → Option JSString
  | _, [] => some []
  | 0, _ => none
  | steps + 1, c :: rest =>
    if c ≠ percent then (decodeFrom steps rest).map (c :: ·)
    else
      (octet (c :: rest)).bind fun found =>
        if found.1 < 0x80 then (decodeFrom steps found.2).map (found.1.toUInt16 :: ·)
        else
          (decodeChar found.1 found.2).bind fun found =>
            (decodeFrom steps found.2).map (utf16EncodeChar found.1 ++ ·)

/-- `decodeURIComponent`; none where it throws -/
def decodeURIComponent (l : JSString) : Option JSString := decodeFrom l.length l

/-! ## Decoding what has been encoded -/

variable {steps : Nat} {c : Char} {rest : JSString} {n : Nat} {bytes : List UInt8} {l : JSString}

theorem hex2bin_hexDigit (digit : n < 16) : hex2bin (hexDigit n) = some n := by
  have all : ∀ n < 16, hex2bin (hexDigit n) = some n := by decide
  exact all n digit

theorem octet_percentEncode (byte : UInt8) (rest : JSString) :
    octet (percentEncode byte ++ rest) = some (byte, rest) := by
  have less := byte.toNat_lt
  have whole : byte.toNat / 16 * 16 + byte.toNat % 16 = byte.toNat := by omega
  change (hex2bin (hexDigit (byte.toNat / 16))).bind _ = _
  rw [hex2bin_hexDigit (by omega), hex2bin_hexDigit (by omega)]
  simp only [bind_some, map_some, whole, UInt8.ofNat_toNat]
  rfl

theorem continuation_percentEncode
    (more : ∀ byte ∈ bytes, 0x80 ≤ byte ∧ byte < 0xC0) (rest : JSString) :
    continuation bytes.length (bytes.flatMap percentEncode ++ rest) = some (bytes, rest) := by
  induction bytes with
  | nil => rfl
  | cons byte bytes ih =>
    obtain ⟨here, more⟩ := forall_mem_cons.mp more
    rw [flatMap_cons, append_assoc, length_cons, continuation,
      octet_percentEncode, bind_some, if_pos here, ih more]
    rfl

theorem toNat_continuation (n : Nat) : (UInt8.ofNat (n % 64 + 0x80)).toNat = n % 64 + 0x80 := by
  rw [UInt8.toNat_ofNat']
  omega

theorem continuation_bounds (n : Nat) :
    0x80 ≤ UInt8.ofNat (n % 64 + 0x80) ∧ UInt8.ofNat (n % 64 + 0x80) < 0xC0 := by
  rw [UInt8.le_iff_toNat_le, UInt8.lt_iff_toNat_lt, toNat_continuation]
  constructor
  · change 0x80 ≤ n % 64 + 0x80
    omega
  change n % 64 + 0x80 < 0xC0
  omega

theorem scalarOf_eq {first : UInt8} (value : codePoint first bytes = c.toNat)
    (least : leastCodePoint bytes.length ≤ c.toNat) : scalarOf first bytes = some c := by
  simp only [scalarOf, value]
  rw [if_pos ⟨least, Char.toNat_range c⟩, Char.ofNat_toNat]

theorem following_eq (low : 0xC0 ≤ n) (high : n < 0xF8) :
    ¬UInt8.ofNat n < 0x80 ∧ following (UInt8.ofNat n) =
      some (if n < 0xE0 then 1 else if n < 0xF0 then 2 else 3) := by
  have byte : (UInt8.ofNat n).toNat = n := by
    rw [UInt8.toNat_ofNat']
    omega
  have less (bound : UInt8) : UInt8.ofNat n < bound ↔ n < bound.toNat := by
    rw [UInt8.lt_iff_toNat_lt, byte]
  constructor
  · rw [less]
    change ¬n < 0x80
    omega
  rw [following]
  simp only [less]
  change (if n < 0xC0 then none else if n < 0xE0 then some 1 else if n < 0xF0 then some 2
    else if n < 0xF8 then some 3 else none) = _
  rw [if_neg (by omega), if_pos high, apply_ite some, apply_ite some]

theorem utf8EncodeChar_eq (large : 0x80 ≤ c.toNat) :
    ∃ first bytes, String.utf8EncodeChar c = first :: bytes ∧ ¬first < 0x80 ∧
      following first = some bytes.length ∧ (∀ byte ∈ bytes, 0x80 ≤ byte ∧ byte < 0xC0) ∧
        scalarOf first bytes = some c := by
  have range := Char.toNat_range c
  have value : c.val.toNat = c.toNat := rfl
  rw [String.utf8EncodeChar]
  rw [if_neg (by omega)]
  split_ifs with two three
  · have first := following_eq (n := c.toNat / 64 % 32 + 0xC0) (by omega) (by omega)
    rw [if_pos (by omega)] at first
    refine ⟨_, _, rfl, first.1, first.2, ?_, scalarOf_eq ?_ large⟩
    · exact forall_mem_singleton.mpr (continuation_bounds c.toNat)
    simp only [codePoint, foldl_cons, foldl_nil, toNat_continuation,
      UInt8.toNat_ofNat', length_singleton]
    omega
  · have first := following_eq (n := c.toNat / 4096 % 16 + 0xE0) (by omega) (by omega)
    rw [if_neg (by omega), if_pos (by omega)] at first
    refine ⟨_, _, rfl, first.1, first.2, ?_, scalarOf_eq ?_ ?_⟩
    · exact forall_mem_cons.mpr ⟨continuation_bounds (c.toNat / 64),
        forall_mem_singleton.mpr (continuation_bounds c.toNat)⟩
    · simp only [codePoint, foldl_cons, foldl_nil, toNat_continuation,
        UInt8.toNat_ofNat', length_cons, length_nil]
      omega
    · exact Nat.lt_of_not_le two
  have first := following_eq (n := c.toNat / 262144 % 8 + 0xF0) (by omega) (by omega)
  refine ⟨_, _, rfl, first.1, first.2, ?_, scalarOf_eq ?_ ?_⟩
  · exact forall_mem_cons.mpr ⟨continuation_bounds (c.toNat / 4096),
      forall_mem_cons.mpr ⟨continuation_bounds (c.toNat / 64),
        forall_mem_singleton.mpr (continuation_bounds c.toNat)⟩⟩
  · simp only [codePoint, foldl_cons, foldl_nil, toNat_continuation,
      UInt8.toNat_ofNat', length_cons, length_nil]
    omega
  · exact Nat.lt_of_not_le three

theorem utf16EncodeChar_small (small : c.toNat < 0x80) :
    utf16EncodeChar c = [UInt16.ofNat c.toNat] := if_pos (by omega)

theorem decodeFrom_escapeChar (steps : Nat) (c : Char) (rest : JSString) :
    decodeFrom (steps + 1) (escapeChar c ++ rest) =
      (decodeFrom steps rest).map (utf16EncodeChar c ++ ·) := by
  rw [escapeChar]
  by_cases small : c.toNat < 0x80
  · have less : UInt8.ofNat c.toNat < 0x80 := by
      change c.toNat % 2 ^ 8 < 0x80
      omega
    have unit_ : (UInt8.ofNat c.toNat).toUInt16 = UInt16.ofNat c.toNat := by
      apply UInt16.toNat_inj.mp
      rw [UInt8.toNat_toUInt16, UInt8.toNat_ofNat', UInt16.toNat_ofNat']
      omega
    rw [utf8EncodeChar_small small, utf16EncodeChar_small small, flatMap_singleton]
    have read := octet_percentEncode (UInt8.ofNat c.toNat) rest
    rw [percentEncode, cons_append] at read ⊢
    rw [decodeFrom, if_neg (not_not_intro rfl), read, bind_some, if_pos less, unit_]
    rfl
  obtain ⟨first, bytes, split, notSmall, count, more, scalar⟩ :=
    utf8EncodeChar_eq (Nat.not_lt.mp small)
  have read := octet_percentEncode first (bytes.flatMap percentEncode ++ rest)
  rw [split, flatMap_cons, append_assoc]
  rw [percentEncode, cons_append] at read ⊢
  rw [decodeFrom, if_neg (not_not_intro rfl), read, bind_some, if_neg notSmall]
  simp only [decodeChar, count, bind_some, continuation_percentEncode more, scalar, map_some]

/-- A character as it may be written in a component: as it is, or escaped -/
inductive Escaped (c : Char) : JSString → Prop where
  | escaped : Escaped c (escapeChar c)
  | plain : c.toNat < 0x80 → c ≠ '%' → Escaped c [UInt16.ofNat c.toNat]

theorem Escaped.length_pos (written : Escaped c l) : 0 < l.length := by
  cases written with
  | escaped =>
    obtain ⟨byte, bytes, split⟩ := exists_cons_of_ne_nil (@String.utf8EncodeChar_ne_nil c)
    rw [escapeChar, split]
    exact Nat.succ_pos _
  | plain => exact Nat.one_pos

theorem Escaped.decodeFrom (written : Escaped c l) (steps : Nat) (rest : JSString) :
    decodeFrom (steps + 1) (l ++ rest) = (decodeFrom steps rest).map (utf16EncodeChar c ++ ·) := by
  cases written with
  | escaped => exact decodeFrom_escapeChar steps c rest
  | plain small other =>
    have notPercent : UInt16.ofNat c.toNat ≠ percent := by
      intro same
      have value := congrArg UInt16.toNat same
      rw [UInt16.toNat_ofNat', Nat.mod_eq_of_lt (by omega)] at value
      exact other (Char.toNat_inj.mp value)
    rw [singleton_append, IoJs.decodeFrom, if_pos notPercent, utf16EncodeChar_small small]
    rfl

theorem decodeURIComponent_pieces {text : List Char} {pieces : List JSString}
    (written : List.Forall₂ Escaped text pieces) :
    decodeURIComponent pieces.flatten = some (utf16Encode text) := by
  have enough (steps : Nat) (le : pieces.flatten.length ≤ steps) :
      IoJs.decodeFrom steps pieces.flatten = some (utf16Encode text) := by
    induction written generalizing steps with
    | nil =>
      cases steps with
      | zero => rfl
      | succ => rfl
    | cons first _ ih =>
      rw [flatten_cons, length_append] at le
      have here := first.length_pos
      obtain ⟨steps, rfl⟩ : ∃ n, steps = n + 1 := ⟨steps - 1, by omega⟩
      rw [flatten_cons, first.decodeFrom, ih steps (by omega)]
      rfl
  exact enough _ (Nat.le_refl _)

theorem decodeURIComponent_escaped (write : Char → JSString) (escaped : ∀ c, Escaped c (write c))
    (text : List Char) :
    decodeURIComponent (text.flatMap write) = some (utf16Encode text) := by
  refine decodeURIComponent_pieces (List.forall₂_map_right_iff.mpr ?_)
  exact List.forall₂_same.mpr fun c _ => escaped c

end IoJs
