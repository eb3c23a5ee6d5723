import IoJs.Base64
import IoJs.Library.Lines
import IoJs.RegExp
import IoJs.StringDecoder.Utf16

/-!
# Strings as bytes

A string becomes bytes in an encoding, which is given by its name. The functions of `buffer.js`
compare the names as they are, or in lower case; those below them, `ParseEncoding` and
`StringBytes`, ignore the case.

A socket passes a string on in two ways: alone, or together with others in one `writev`.
-/

namespace IoJs.Buffer

open IoJs.Stream IoJs.RegExp List

/-! ## Names -/

/-- `toLowerCase`, of the names that matter: no other character has a lower case in ASCII that is a
letter of the name of an encoding. -/
def toLowerCase (name : JSString) : JSString :=
  name.map fun ch => if 0x41 ≤ ch ∧ ch ≤ 0x5A then ch + 0x20 else ch

/-- `Buffer.isEncoding` -/
def isEncoding (name : JSString) : Bool :=
  [js "hex", js "utf8", js "utf-8", js "ascii", js "binary", js "base64", js "ucs2", js "ucs-2",
    js "utf16le", js "utf-16le", js "raw"].contains (toLowerCase name)

/-- `enum encoding` -/
inductive Encoding where
  | ascii
  | utf8
  | base64
  | ucs2
  | binary
  | hex
  deriving DecidableEq

/-- `ParseEncoding`, of a name of an encoding. What it does first saves comparing the most common
names with all the others. -/
def parseEncoding (name : JSString) (default : Encoding) : Encoding :=
  let name := toLowerCase name
  if name = js "utf8" ∨ name = js "utf-8" then .utf8
  else if name = js "ascii" then .ascii
  else if name = js "base64" then .base64
  else if name = js "ucs2" ∨ name = js "ucs-2" ∨ name = js "utf16le" ∨
    name = js "utf-16le" then .ucs2
  else if name = js "binary" then .binary
  else if name = js "hex" then .hex
  -- it prints that 'raw' has been removed
  else if name = js "raw" then .binary
  else default

/-! ## `StringBytes` -/

/-- Is a code unit a trail surrogate? -/
def isTrail (unit : UInt16) : Bool := 0xDC00 ≤ unit && unit ≤ 0xDFFF

/-- The scalar value of a surrogate pair -/
def pair (lead trail : UInt16) : Char :=
  Char.ofNat (0x10000 + (lead.toNat - 0xD800) * 0x400 + (trail.toNat - 0xDC00))

/-- The scalar value of a code unit that is not in a pair -/
def scalar (unit : UInt16) : Char :=
  if isLead unit ∨ isTrail unit then Char.ofNat 0xFFFD else Char.ofNat unit.toNat

/-- The text of a string, where `REPLACE_INVALID_UTF8` replaces the surrogates that are alone. -/
def scalars : JSString → List Char
  | [] => []
  | [unit] => [scalar unit]
  | unit :: next :: rest =>
    if isLead unit ∧ isTrail next then pair unit next :: scalars rest
    else scalar unit :: scalars (next :: rest)

def utf8Write (text : JSString) : List UInt8 := utf8Encode (scalars text)

/-- `WriteOneByte` -/
def oneByte (text : JSString) : List UInt8 := text.map (·.toUInt8)

def hex2bin (ch : UInt16) : Option Nat :=
  if 0x30 ≤ ch ∧ ch ≤ 0x39 then some (ch.toNat - 0x30)
  else if 0x41 ≤ ch ∧ ch ≤ 0x46 then some (10 + (ch.toNat - 0x41))
  else if 0x61 ≤ ch ∧ ch ≤ 0x66 then some (10 + (ch.toNat - 0x61))
  else none

/-- `hex_decode`; there is room for half as many bytes as there are characters. -/
def hexDecode : JSString → List UInt8
  | first :: second :: rest =>
    match hex2bin first, hex2bin second with
    | some a, some b => UInt8.ofNat (a * 16 + b) :: hexDecode rest
    | _, _ => []
  | _ => []

/-- `StringBytes::Size` -/
def size (text : JSString) : Encoding → Nat
  | .binary => text.length
  | .ascii => text.length
  | .utf8 => (utf8Write text).length
  | .ucs2 => text.length * 2
  | .base64 => base64DecodedSize text
  | .hex => text.length / 2

/-- `StringBytes::Write`, into a buffer that is large enough for the encoding; that of base64 has
`room` bytes. -/
def write (text : JSString) (room : Nat) : Encoding → List UInt8
  | .binary => oneByte text
  | .ascii => oneByte text
  | .utf8 => utf8Write text
  | .ucs2 => text.flatMap unitBytes
  | .base64 => base64Decode room text
  | .hex => hexDecode text

/-! ## `buffer.js` -/

/-- `Buffer.byteLength`; `null` and `undefined` are not names of an encoding. -/
def byteLength (text : JSString) (encoding : Option JSString) : Nat :=
  if encoding = some (js "ascii") ∨ encoding = some (js "binary") ∨ encoding = some (js "raw") then
    text.length
  else if encoding = some (js "ucs2") ∨ encoding = some (js "ucs-2") ∨
      encoding = some (js "utf16le") ∨ encoding = some (js "utf-16le") then
    text.length * 2
  else if encoding = some (js "hex") then text.length / 2
  else
    match encoding with
    | some name => size text (parseEncoding name .utf8)
    | none => size text .utf8

/-- `new Buffer(text, encoding)`: `Buffer.prototype.write` into as many bytes as `byteLength` tells.
It throws when the encoding is unknown, and when half a byte is left over. -/
def fromString (text name : JSString) : Option (List UInt8) :=
  let room := byteLength text (some name)
  let name := toLowerCase name
  if name = js "hex" then if text.length % 2 = 0 then some (write text room .hex) else none
  else if name = js "utf8" ∨ name = js "utf-8" then some (write text room .utf8)
  else if name = js "ascii" then some (write text room .ascii)
  else if name = js "binary" then some (write text room .binary)
  else if name = js "base64" then some (write text room .base64)
  else if name = js "ucs2" ∨ name = js "ucs-2" ∨ name = js "utf16le" ∨ name = js "utf-16le" then
    some (write text room .ucs2)
  else none

/-! ## Sockets -/

/-- How a socket passes on what is written to it: alone, or together with others -/
inductive Way where
  | write
  | writev
  deriving DecidableEq

/-- `createWriteReq`: what goes out for a string that is passed on alone -/
def createWriteReq (text name : JSString) : Option (List UInt8) :=
  if name = js "binary" then some (write text text.length .binary)
  else if name = js "utf8" ∨ name = js "utf-8" then some (write text (3 * text.length) .utf8)
  else if name = js "ascii" then some (write text text.length .ascii)
  else if name = js "ucs2" ∨ name = js "ucs-2" ∨ name = js "utf16le" ∨ name = js "utf-16le" then
    some (write text (text.length * 2) .ucs2)
  else fromString text name

/-- `Writev`: what goes out for a string among others. A string in hex that has half a byte left
over ends the process. -/
def writev (text name : JSString) : Option (List UInt8) :=
  let encoding := parseEncoding name .binary
  if encoding = .hex ∧ text.length % 2 ≠ 0 then none
  else some (write text (base64DecodedSizeFast text.length) encoding)

/-- What goes out for a string; the encoding of a stream is UTF-8 where none is given. -/
def sent (way : Way) (text : JSString) (encoding : Option JSString) : Option (List UInt8) :=
  let name := encoding.getD (js "utf8")
  match way with
  | .write => createWriteReq text name
  | .writev => writev text name

/-! ## Encodings by their names -/

theorem byteLength_some (text name : JSString) :
    byteLength text (some name) = size text (parseEncoding name .utf8) := by
  rw [byteLength.eq_def]
  simp only [Option.some.injEq]
  split
  · rename_i exact_
    obtain rfl | rfl | rfl := exact_ <;> rfl
  split
  · rename_i exact_
    obtain rfl | rfl | rfl | rfl := exact_ <;> rfl
  split
  · rename_i exact_
    subst exact_
    rfl
  · rfl

theorem createWriteReq_eq (text name : JSString) :
    createWriteReq text name = fromString text name := by
  rw [createWriteReq]
  split
  · rename_i exact_
    subst exact_
    rfl
  split
  · rename_i exact_
    obtain rfl | rfl := exact_ <;> rfl
  split
  · rename_i exact_
    subst exact_
    rfl
  split
  · rename_i exact_
    obtain rfl | rfl | rfl | rfl := exact_ <;> rfl
  · rfl

variable {name : JSString}

theorem isEncoding_iff :
    isEncoding name = true ↔ toLowerCase name ∈ [js "hex", js "utf8", js "utf-8", js "ascii",
      js "binary", js "base64", js "ucs2", js "ucs-2", js "utf16le", js "utf-16le", js "raw"] := by
  rw [isEncoding, contains_iff_mem]

theorem parseEncoding_default (known : isEncoding name = true)
    (default other : Encoding) : parseEncoding name default = parseEncoding name other := by
  rw [isEncoding_iff] at known
  simp only [parseEncoding]
  generalize toLowerCase name = lower at known
  simp only [mem_cons, not_mem_nil, or_false] at known
  obtain rfl | rfl | rfl | rfl | rfl | rfl | rfl | rfl | rfl | rfl | rfl := known
  all_goals rfl

theorem fromString_eq (text : JSString) (known : isEncoding name = true) : fromString text name =
    if toLowerCase name = js "raw" then none
    else if parseEncoding name .binary = .hex ∧ text.length % 2 ≠ 0 then none
    else some (write text (byteLength text (some name)) (parseEncoding name .binary)) := by
  rw [isEncoding_iff] at known
  rw [fromString, parseEncoding]
  generalize byteLength text (some name) = room
  generalize toLowerCase name = lower at known ⊢
  simp only [mem_cons, not_mem_nil, or_false] at known
  obtain rfl | rfl | rfl | rfl | rfl | rfl | rfl | rfl | rfl | rfl | rfl := known
  · change (if text.length % 2 = 0 then some (write text room .hex) else none) =
      if Encoding.hex = .hex ∧ text.length % 2 ≠ 0 then none else some (write text room .hex)
    by_cases even : text.length % 2 = 0
    · rw [if_pos even, if_neg (fun odd => odd.2 even)]
    · simp [even]
  all_goals rfl

/-- The room for what is decoded -/
def Way.room (text name : JSString) : Way → Nat
  | .write => byteLength text (some name)
  | .writev => base64DecodedSizeFast text.length

theorem sent_eq (way : Way) (text : JSString) (known : isEncoding name = true) :
    sent way text (some name) = if way = .write ∧ toLowerCase name = js "raw" then none
      else if parseEncoding name .binary = .hex ∧ text.length % 2 ≠ 0 then none
      else some (write text (way.room text name) (parseEncoding name .binary)) := by
  cases way with
  | write =>
    have whole : sent .write text (some name) = createWriteReq text name := rfl
    rw [whole, createWriteReq_eq, fromString_eq text known]
    simp [Way.room]
  | writev =>
    rfl

/-! ## UTF-8 -/

variable {left right : JSString}

theorem scalars_append
    (apart : ∀ unit ∈ left.getLast?, ∀ next ∈ right.head?, ¬ (isLead unit ∧ isTrail next)) :
    scalars (left ++ right) = scalars left ++ scalars right := by
  induction left using scalars.induct with
  | case1 => rfl
  | case2 unit =>
    cases right with
    | nil => rfl
    | cons next rest =>
      have apart : ¬ (isLead unit ∧ isTrail next) := apart unit rfl next rfl
      have step : scalars (unit :: next :: rest) = scalar unit :: scalars (next :: rest) := by
        rw [scalars, if_neg apart]
      exact step
  | case3 unit next rest paired ih =>
    rw [cons_append, cons_append, scalars, if_pos paired, scalars, if_pos paired, cons_append]
    cases rest with
    | nil => rfl
    | cons =>
      rw [ih]
      intro last isLast
      exact apart last (by simpa using isLast)
  | case4 unit next rest single ih =>
    have whole : scalars (next :: rest ++ right) = scalars (next :: rest) ++ scalars right := by
      apply ih
      intro last isLast
      exact apart last (by simpa using isLast)
    rw [cons_append, cons_append, scalars, if_neg single, scalars, if_neg single,
      ← cons_append, whole]
    rfl

theorem utf8Write_append_of_last (plain : ∀ unit ∈ left.getLast?, isLead unit = false) :
    utf8Write (left ++ right) = utf8Write left ++ utf8Write right := by
  have split : scalars (left ++ right) = scalars left ++ scalars right := by
    apply scalars_append
    intro unit last next _ paired
    simp [plain unit last] at paired
  rw [utf8Write, split, utf8Encode_append]
  rfl

theorem utf8Write_append_of_head (plain : ∀ unit ∈ right.head?, isTrail unit = false) :
    utf8Write (left ++ right) = utf8Write left ++ utf8Write right := by
  have split : scalars (left ++ right) = scalars left ++ scalars right := by
    apply scalars_append
    intro unit _ next first paired
    simp [plain next first] at paired
  rw [utf8Write, split, utf8Encode_append]
  rfl

variable {c : Char}

theorem utf8EncodeChar_small (small : c.toNat < 0x80) :
    String.utf8EncodeChar c = [UInt8.ofNat c.toNat] := by
  have small : c.val.toNat ≤ 0x7F := by
    have : c.toNat = c.val.toNat := rfl
    omega
  rw [String.utf8EncodeChar, if_pos small]
  rfl

theorem utf8EncodeChar_large (large : 0x80 ≤ c.toNat) :
    2 ≤ (String.utf8EncodeChar c).length ∧ ∀ byte ∈ String.utf8EncodeChar c, 0x80 ≤ byte.toNat := by
  have large : ¬ c.val.toNat ≤ 0x7F := by
    have : c.toNat = c.val.toNat := rfl
    omega
  rw [String.utf8EncodeChar]
  simp only [if_neg large]
  split
  · simp [UInt8.toNat_ofNat']
    omega
  split
  · simp [UInt8.toNat_ofNat']
    omega
  simp [UInt8.toNat_ofNat']
  omega

theorem toNat_charOfNat {n : Nat} (valid : n < 0xD800 ∨ 0xDFFF < n ∧ n < 0x110000) :
    (Char.ofNat n).toNat = n := by
  rw [Char.ofNat, dif_pos valid]
  rfl

theorem isTrail_eq (unit : UInt16) :
    isTrail unit = decide (0xDC00 ≤ unit.toNat ∧ unit.toNat ≤ 0xDFFF) := by
  simp [isTrail, UInt16.le_iff_toNat_le, Bool.decide_and]

theorem toNat_scalar (unit : UInt16) :
    (scalar unit).toNat = unit.toNat ∨ 0x80 ≤ unit.toNat ∧ (scalar unit).toNat = 0xFFFD := by
  have lead := isLead_eq unit
  have trail := isTrail_eq unit
  rw [scalar]
  split
  · rename_i surrogate
    rw [lead, trail, decide_eq_true_eq, decide_eq_true_eq] at surrogate
    right
    exact ⟨by omega, rfl⟩
  rename_i plain
  rw [lead, trail, decide_eq_true_eq, decide_eq_true_eq] at plain
  left
  have bound := unit.toNat_lt
  exact toNat_charOfNat (by omega)

theorem toNat_pair {lead trail : UInt16} (paired : isLead lead ∧ isTrail trail) :
    0x10000 ≤ (pair lead trail).toNat ∧ 0x80 ≤ lead.toNat ∧ 0x80 ≤ trail.toNat := by
  grind [isLead_eq, isTrail_eq, pair, toNat_charOfNat]

variable {byte : UInt8}

theorem mem_utf8EncodeChar (ascii : byte.toNat < 0x80) :
    byte ∈ String.utf8EncodeChar c ↔ c.toNat = byte.toNat := by
  by_cases small : c.toNat < 0x80
  · rw [utf8EncodeChar_small small, mem_singleton, ← UInt8.toNat_inj, UInt8.toNat_ofNat',
      Nat.mod_eq_of_lt (by omega)]
    exact eq_comm
  constructor
  · intro mem
    have large := (utf8EncodeChar_large (by omega)).2 byte mem
    omega
  · omega

variable {text : JSString}

theorem mem_utf8Write (ascii : byte.toNat < 0x80) :
    byte ∈ utf8Write text ↔ ∃ unit ∈ text, unit.toNat = byte.toNat := by
  have alone (unit : UInt16) :
      byte ∈ String.utf8EncodeChar (scalar unit) ↔ unit.toNat = byte.toNat := by
    rw [mem_utf8EncodeChar ascii]
    obtain eq | ⟨large, eq⟩ := toNat_scalar unit
    · rw [eq]
    · omega
  rw [utf8Write]
  induction text using scalars.induct with
  | case1 => simp [scalars]
  | case2 unit => simp [scalars, alone]
  | case3 unit next rest paired ih =>
    have large := toNat_pair paired
    have none : byte ∉ String.utf8EncodeChar (pair unit next) := by
      rw [mem_utf8EncodeChar ascii]
      omega
    rw [scalars, if_pos paired, utf8Encode_cons, mem_append, exists_mem_cons_iff,
      exists_mem_cons_iff]
    constructor
    · grind
    · grind
  | case4 unit next rest single ih =>
    rw [scalars, if_neg single, utf8Encode_cons, mem_append, exists_mem_cons_iff]
    exact or_congr (alone unit) ih

theorem length_utf8Write (text : JSString) : text.length ≤ (utf8Write text).length ∧
    ((utf8Write text).length = text.length ↔ ∀ unit ∈ text, unit.toNat < 0x80) := by
  have alone (unit : UInt16) : 1 ≤ (String.utf8EncodeChar (scalar unit)).length ∧
        ((String.utf8EncodeChar (scalar unit)).length = 1 ↔ unit.toNat < 0x80) := by
    have same := toNat_scalar unit
    by_cases small : (scalar unit).toNat < 0x80
    · rw [utf8EncodeChar_small small, length_singleton]
      omega
    have large := (utf8EncodeChar_large (by omega : 0x80 ≤ (scalar unit).toNat)).1
    omega
  rw [utf8Write]
  induction text using scalars.induct with
  | case1 => simp [scalars]
  | case2 unit =>
    have here := alone unit
    simp only [scalars, utf8Encode_cons, utf8Encode_nil, append_nil, length_singleton,
      mem_singleton, forall_eq]
    omega
  | case3 unit next rest paired ih =>
    have large := toNat_pair paired
    have long : 4 ≤ (String.utf8EncodeChar (pair unit next)).length := by
      have size : (pair unit next).utf8Size = 4 := by
        rw [Char.utf8Size_eq_four_iff, UInt32.lt_iff_toNat_lt]
        exact large.1
      rw [String.length_utf8EncodeChar, size]
    obtain ⟨least, -⟩ := ih
    rw [scalars, if_pos paired, utf8Encode_cons, length_append, forall_mem_cons,
      length_cons, length_cons]
    omega
  | case4 unit next rest single ih =>
    have here := alone unit
    obtain ⟨least, equal⟩ := ih
    rw [scalars, if_neg single, utf8Encode_cons, length_append, forall_mem_cons,
      length_cons, ← here.2, ← equal]
    omega

theorem utf8Write_ascii (ascii : ∀ unit ∈ text, unit.toNat < 0x80) :
    utf8Write text = oneByte text := by
  induction text with
  | nil => rfl
  | cons unit rest ih =>
    obtain ⟨small, ascii⟩ := forall_mem_cons.mp ascii
    have plain : ∀ first ∈ [unit].getLast?, isLead first = false := by
      intro first isFirst
      obtain rfl : unit = first := by simpa using isFirst
      rw [isLead_eq, decide_eq_false_iff_not]
      omega
    have same : (scalar unit).toNat = unit.toNat := by
      obtain eq | ⟨large, -⟩ := toNat_scalar unit
      · exact eq
      · omega
    have first : utf8Write [unit] = [unit.toUInt8] := by
      rw [utf8Write, scalars, utf8Encode_cons, utf8EncodeChar_small (by omega), same]
      simp
    have split : utf8Write ([unit] ++ rest) = utf8Write [unit] ++ utf8Write rest :=
      utf8Write_append_of_last plain
    rw [first, ih ascii] at split
    exact split

theorem utf8Write_utf16EncodeChar (c : Char) :
    utf8Write (utf16EncodeChar c) = String.utf8EncodeChar c := by
  have range := Char.toNat_range c
  have same : scalars (utf16EncodeChar c) = [c] := by
    obtain ⟨unit, eq, small, value⟩ | ⟨lead, trail, eq, large, first, second⟩ :=
      utf16EncodeChar_units c
    · have single : ¬(isLead unit = true ∨ isTrail unit = true) := by
        rw [isLead_eq, isTrail_eq, value, decide_eq_true_eq, decide_eq_true_eq]
        omega
      rw [eq, scalars, scalar, if_neg single, value, Char.ofNat_toNat]
    have paired : isLead lead = true ∧ isTrail trail = true := by
      rw [isLead_eq, isTrail_eq, first, second, decide_eq_true_eq, decide_eq_true_eq]
      omega
    have number : 0x10000 + (0xD800 + (c.toNat - 0x10000) / 0x400 - 0xD800) * 0x400 +
        (0xDC00 + (c.toNat - 0x10000) % 0x400 - 0xDC00) = c.toNat := by omega
    rw [eq, scalars, if_pos paired, pair, first, second, number, Char.ofNat_toNat]
    rfl
  simp [utf8Write, same, utf8Encode_cons, utf8Encode_nil]

theorem utf8Write_utf16Encode (text : List Char) :
    utf8Write (utf16Encode text) = utf8Encode text := by
  induction text with
  | nil => rfl
  | cons c text ih =>
    have plain : ∀ unit ∈ (utf16EncodeChar c).getLast?, isLead unit = false := by
      intro unit last
      obtain ⟨single, eq, plain⟩ | ⟨lead, trail, eq, -, plain⟩ := utf16EncodeChar_cases c
      · rw [eq] at last
        obtain rfl : single = unit := by simpa using last
        exact plain
      rw [eq] at last
      obtain rfl : trail = unit := by simpa using last
      exact plain
    rw [utf16Encode_cons, utf8Write_append_of_last plain, ih, utf8Write_utf16EncodeChar,
      utf8Encode_cons]

theorem utf16Encode_ascii {text : List Char} (ascii : ∀ c ∈ text, c.toNat < 0x80) :
    utf16Encode text = text.map unit := by
  induction text with
  | nil => rfl
  | cons c text ih =>
    obtain ⟨here, ascii⟩ := forall_mem_cons.mp ascii
    rw [utf16Encode_cons, ih ascii, utf16EncodeChar, if_pos (by omega), map_cons]
    rfl

theorem eq_of_unit_mem {ascii : Char} (small : ascii.toNat < 0x80)
    (mem : unit ascii ∈ utf16EncodeChar c) : c = ascii := by
  have number : (unit ascii).toNat = ascii.toNat := by
    rw [unit, UInt16.toNat_ofNat']
    omega
  obtain ⟨single, eq, -, value⟩ | ⟨lead, trail, eq, large, first, second⟩ := utf16EncodeChar_units c
  · rw [eq, mem_singleton] at mem
    rw [mem, value] at number
    exact Char.toNat_inj.mp number
  rw [eq, mem_cons, mem_singleton] at mem
  rcases mem with here | here
  · rw [here, first] at number
    omega
  rw [here, second] at number
  omega

theorem utf16Encode_ne_nil {text : List Char} (filled : text ≠ []) : utf16Encode text ≠ [] := by
  obtain ⟨c, rest, rfl⟩ := exists_cons_of_ne_nil filled
  obtain ⟨single, eq, -⟩ | ⟨lead, trail, eq, -, -⟩ := utf16EncodeChar_cases c
  · simp [utf16Encode_cons, eq]
  · simp [utf16Encode_cons, eq]

/-! ## Single-byte text and UTF-8 -/

/-- The two ways to encode a text in which ASCII is itself. -/
inductive Charset where
  | oneByte
  | utf8

namespace Charset

def bytes : Charset → JSString → List UInt8
  | .oneByte => Buffer.oneByte
  | .utf8 => utf8Write

/-- Is a code unit sent as CR or LF? -/
def breaks (charset : Charset) (unit : UInt16) : Bool :=
  match charset with
  | .oneByte => unit.toUInt8 = 0x0D || unit.toUInt8 = 0x0A
  | .utf8 => unit = 0x0D || unit = 0x0A

theorem plain_bytes (charset : Charset) (text : JSString) :
    Library.Plain (charset.bytes text) ↔ ∀ unit ∈ text, charset.breaks unit = false := by
  cases charset with
  | oneByte => simp [Library.Plain, bytes, Buffer.oneByte, breaks]
  | utf8 =>
    have here (byte : UInt8) (unit : UInt16) (same : unit.toNat = byte.toNat)
        (ascii : byte.toNat < 0x80) (plain : unit ∉ text) : byte ∉ utf8Write text := by
      rw [mem_utf8Write ascii]
      rintro ⟨other, mem, eq⟩
      rw [← same, UInt16.toNat_inj] at eq
      exact plain (eq ▸ mem)
    simp only [Library.Plain, bytes, breaks, Bool.or_eq_false_iff, decide_eq_false_iff_not]
    constructor
    · intro plain unit mem
      constructor
      · rintro rfl
        exact (plain 0x0D ((mem_utf8Write (by decide)).mpr ⟨_, mem, rfl⟩)).1 rfl
      rintro rfl
      exact (plain 0x0A ((mem_utf8Write (by decide)).mpr ⟨_, mem, rfl⟩)).2 rfl
    intro plain byte mem
    constructor
    · rintro rfl
      exact here 0x0D 0x0D rfl (by decide) (fun mem => (plain _ mem).1 rfl) mem
    rintro rfl
    exact here 0x0A 0x0A rfl (by decide) (fun mem => (plain _ mem).2 rfl) mem

variable {charset : Charset} {left right : JSString}

theorem bytes_append_of_head (plain : ∀ unit ∈ right.head?, isTrail unit = false) :
    charset.bytes (left ++ right) = charset.bytes left ++ charset.bytes right := by
  cases charset with
  | oneByte => exact map_append
  | utf8 => exact utf8Write_append_of_head plain

theorem bytes_append_of_last (plain : ∀ unit ∈ left.getLast?, isLead unit = false) :
    charset.bytes (left ++ right) = charset.bytes left ++ charset.bytes right := by
  cases charset with
  | oneByte => exact map_append
  | utf8 => exact utf8Write_append_of_last plain

theorem bytes_ascii {text : JSString}
    (ascii : ∀ unit ∈ text, unit.toNat < 0x80) : charset.bytes text = Buffer.oneByte text := by
  cases charset with
  | oneByte => rfl
  | utf8 => exact utf8Write_ascii ascii

end Charset

end IoJs.Buffer
