import IoJs.Buffer.External

/-!
# Hex and base64 there and back

`toString` gives a string that lies outside the heap if it is long, and `new Buffer` decodes it into
as many bytes as `Buffer.byteLength` predicts. The prediction is never too small, so the bytes come
back (`fromString_toString`); and of any string, all characters of the alphabet of base64 are
decoded (`fromString_base64`).
-/

namespace IoJs.Buffer

open IoJs.Library IoJs.Stream IoJs.RegExp List

/-! ## Hex -/

def hexTable : List Char :=
  ['0', '1', '2', '3', '4', '5', '6', '7', '8', '9', 'a', 'b', 'c', 'd', 'e', 'f']

/-- The code unit of `hex[index]` -/
def hexDigit (index : UInt8) : UInt16 := unit (hexTable.getD index.toNat '0')

/-- The digits of a byte -/
def hexByte (val : UInt8) : JSString := [hexDigit (val >>> 4), hexDigit (val &&& 15)]

def hexEncode (bytes : List UInt8) : JSString := bytes.flatMap hexByte

theorem hexEncode_cons (val : UInt8) (bytes : List UInt8) : hexEncode (val :: bytes) =
    hexDigit (val >>> 4) :: hexDigit (val &&& 15) :: hexEncode bytes :=
  rfl

theorem hex2bin_hexDigit (index : UInt8) (small : index.toNat < 16) :
    hex2bin (hexDigit index) = some index.toNat :=
  forall_byte_lt 16 (P := fun i => hex2bin (hexDigit i) = some i.toNat) (by decide) index small

theorem hex_bits (val : UInt8) : (val >>> 4).toNat * 16 + (val &&& 15).toNat = val.toNat := by
  have high : (val >>> 4).toNat = val.toNat / 16 := by
    exact Nat.shiftRight_eq_div_pow val.toNat 4
  have low : (val &&& 15).toNat = val.toNat % 16 := by
    exact Nat.and_two_pow_sub_one_eq_mod val.toNat 4
  omega

theorem hexDecode_hexEncode (bytes : List UInt8) : hexDecode (hexEncode bytes) = bytes := by
  induction bytes with
  | nil => rfl
  | cons val bytes ih =>
    have bits := hex_bits val
    have bound := UInt8.toNat_lt val
    have low : (val &&& 15).toNat < 16 := @toNat_and_lt val 15 4 (by decide)
    have high : (val >>> 4).toNat < 16 := by omega
    rw [hexEncode_cons, hexDecode, hex2bin_hexDigit _ high, hex2bin_hexDigit _ low]
    simp only [bits, UInt8.ofNat_toNat, ih]

theorem length_hexEncode (bytes : List UInt8) : (hexEncode bytes).length = 2 * bytes.length := by
  induction bytes with
  | nil => rfl
  | cons val bytes ih =>
    rw [hexEncode_cons, length_cons, length_cons, length_cons, ih]
    omega

theorem hexDigit_lt (index : UInt8) : (hexDigit index).toNat < 0x80 := by
  by_cases small : index.toNat < 16
  · exact forall_byte_lt 16 (P := fun i => (hexDigit i).toNat < 0x80) (by decide) index small
  have outside : hexTable.getD index.toNat '0' = '0' := getD_eq_default _ _ (Nat.le_of_not_lt small)
  rw [hexDigit, outside]
  decide

/-! ## Base64 -/

/-- The value of a character in the alphabets of base64, the standard one and that of URLs -/
def base64Value (ch : UInt16) : Option UInt8 :=
  if unit 'A' ≤ ch ∧ ch ≤ unit 'Z' then some (ch - unit 'A').toUInt8
  else if unit 'a' ≤ ch ∧ ch ≤ unit 'z' then some ((ch - unit 'a').toUInt8 + 26)
  else if unit '0' ≤ ch ∧ ch ≤ unit '9' then some ((ch - unit '0').toUInt8 + 52)
  else if ch = unit '+' ∨ ch = unit '-' then some 62
  else if ch = unit '/' ∨ ch = unit '_' then some 63
  else none

/-- Four digits of six bits make three bytes; of those left over, three make two and two make one.
-/
def decodeDigits : List UInt8 → List UInt8
  | a :: b :: c :: d :: rest =>
    (a <<< 2 ||| b >>> 4) :: (b <<< 4 ||| c >>> 2) :: (c <<< 6 ||| d) :: decodeDigits rest
  | [a, b, c] => [a <<< 2 ||| b >>> 4, b <<< 4 ||| c >>> 2]
  | [a, b] => [a <<< 2 ||| b >>> 4]
  | _ => []

/-- What the characters of the alphabet mean -/
def base64Decoding (src : JSString) : List UInt8 := decodeDigits (src.filterMap base64Value)

variable {ch : UInt16}

theorem unbase64_eq (narrow : ch.toNat < 256) :
    base64Value ch = if unbase64 ch < 0 then none else some (UInt8.ofNat (unbase64 ch).toNat) := by
  have all : ∀ n < 256, base64Value (UInt16.ofNat n) = if unbase64 (UInt16.ofNat n) < 0 then none
      else some (UInt8.ofNat (unbase64 (UInt16.ofNat n)).toNat) := by decide +kernel
  have here := all ch.toNat narrow
  rwa [UInt16.ofNat_toNat] at here

theorem base64Value_lt (narrow : ch.toNat < 256) {digit : UInt8}
    (value : base64Value ch = some digit) : digit.toNat < 64 := by
  have all : ∀ n < 256, ((base64Value (UInt16.ofNat n)).all fun digit => digit.toNat < 64) =
    true := by
    decide +kernel
  have here := all ch.toNat narrow
  rw [UInt16.ofNat_toNat, value] at here
  simpa using here

variable {src : JSString}

theorem nextDigit_cases (narrow : ∀ ch ∈ src, ch.toNat < 256) :
    (nextDigit src = none ∧ src.filterMap base64Value = []) ∨
      ∃ digit rest, nextDigit src = some (digit, rest) ∧ digit.toNat < 64 ∧
        src.filterMap base64Value = digit :: rest.filterMap base64Value ∧
        ∀ ch ∈ rest, ch.toNat < 256 := by
  induction src with
  | nil => exact .inl ⟨rfl, rfl⟩
  | cons ch src ih =>
    obtain ⟨here, narrow⟩ := forall_mem_cons.mp narrow
    have value := unbase64_eq here
    rw [nextDigit]
    by_cases skipped : unbase64 ch < 0
    · rw [if_pos skipped] at value ⊢
      rw [filterMap_cons_none value]
      exact ih narrow
    have digit : ch ≠ base64Pad := by
      rintro rfl
      exact skipped (by decide)
    rw [if_neg skipped] at value ⊢
    rw [if_neg digit, filterMap_cons_some value]
    exact .inr ⟨_, _, rfl, base64Value_lt here value, rfl, narrow⟩

section Bits

variable {b c d : UInt8}

theorem first_low (small : b.toNat < 64) : (b &&& 0x30) >>> 4 = b >>> 4 :=
  forall_byte_lt 64 (P := fun b => (b &&& 0x30) >>> 4 = b >>> 4) (by decide) b small

theorem second_high (small : b.toNat < 64) : (b &&& 0x0F) <<< 4 = b <<< 4 :=
  forall_byte_lt 64 (P := fun b => (b &&& 0x0F) <<< 4 = b <<< 4) (by decide) b small

theorem second_low (small : c.toNat < 64) : (c &&& 0x3C) >>> 2 = c >>> 2 :=
  forall_byte_lt 64 (P := fun c => (c &&& 0x3C) >>> 2 = c >>> 2) (by decide) c small

theorem third_high (small : c.toNat < 64) : (c &&& 0x03) <<< 6 = c <<< 6 :=
  forall_byte_lt 64 (P := fun c => (c &&& 0x03) <<< 6 = c <<< 6) (by decide) c small

theorem third_low (small : d.toNat < 64) : d &&& 0x3F = d :=
  forall_byte_lt 64 (P := fun d => d &&& 0x3F = d) (by decide) d small

end Bits

theorem decodeDigits_two (a b : UInt8) (rest : List UInt8) :
    ∃ others, decodeDigits (a :: b :: rest) = (a <<< 2 ||| b >>> 4) :: others := by
  rcases rest with _ | ⟨c, _ | ⟨d, rest⟩⟩
  · exact ⟨_, rfl⟩
  · exact ⟨_, rfl⟩
  · exact ⟨_, rfl⟩

theorem decodeDigits_three (a b c : UInt8) (rest : List UInt8) :
    ∃ others, decodeDigits (a :: b :: c :: rest) =
      (a <<< 2 ||| b >>> 4) :: (b <<< 4 ||| c >>> 2) :: others := by
  rcases rest with _ | ⟨d, rest⟩
  · exact ⟨_, rfl⟩
  · exact ⟨_, rfl⟩

/-- With less room, the decoder gives the first bytes of what it gives with enough. -/
theorem base64Decode_eq (room : Nat) (narrow : ∀ ch ∈ src, ch.toNat < 256) :
    base64Decode room src = (base64Decoding src).take room := by
  rw [base64Decoding]
  induction room using Nat.strong_induction_on generalizing src with
  | _ room ih =>
    cases room with
    | zero => rw [base64Decode.eq_def, take_zero]
    | succ room =>
      rw [base64Decode.eq_def]
      obtain ⟨none, digits⟩ | ⟨a, src1, found, -, digits, narrow⟩ := nextDigit_cases narrow
      · simp only [none, digits, decodeDigits, take_nil]
      simp only [found, digits]
      obtain ⟨none, digits⟩ | ⟨b, src2, found, b64, digits, narrow⟩ := nextDigit_cases narrow
      · simp only [none, digits, decodeDigits, take_nil]
      simp only [found, digits, first_low b64, second_high b64]
      cases room with
      | zero =>
        obtain ⟨others, eq⟩ := decodeDigits_two a b (src2.filterMap base64Value)
        rw [eq]
        rfl
      | succ room =>
        obtain ⟨none, digits⟩ | ⟨c, src3, found, c64, digits, narrow⟩ := nextDigit_cases narrow
        · simp only [none, digits, decodeDigits, take_succ_cons, take_nil]
        simp only [found, digits, second_low c64, third_high c64]
        cases room with
        | zero =>
          obtain ⟨others, eq⟩ := decodeDigits_three a b c (src3.filterMap base64Value)
          rw [eq]
          rfl
        | succ room =>
          obtain ⟨none, digits⟩ | ⟨d, src4, found, d64, digits, narrow⟩ := nextDigit_cases narrow
          · simp only [none, digits, decodeDigits, take_succ_cons, take_nil]
          simp only [found, digits, third_low d64, decodeDigits, take_succ_cons]
          rw [ih room (by omega) narrow]

theorem length_base64Decoding_le (narrow : ∀ ch ∈ src, ch.toNat < 256) :
    (base64Decoding src).length ≤ base64DecodedSize src := by
  have enough (room : Nat) (most : base64DecodedSize src ≤ room) :
      min room (base64Decoding src).length = 3 * src.countP isBase64Digit / 4 := by
    rw [← length_base64Decode_of_le most, base64Decode_eq room narrow, length_take]
  have here := enough _ (Nat.le_refl _)
  have more := enough (base64DecodedSize src + 1) (Nat.le_succ _)
  omega

/-! ## There and back -/

def externApex : Nat := 0xFBEE9

/-- A string of single bytes, which lies outside the heap if it is long -/
def newString (units : JSString) (narrow : ∀ unit ∈ units, unit.toNat < 256) : Str :=
  { units, storage := if units.length < externApex then .internal else .oneByte,
    narrow := fun _ => narrow }

theorem narrow_hexEncode (bytes : List UInt8) : ∀ unit ∈ hexEncode bytes, unit.toNat < 256 := by
  intro unit mem
  obtain ⟨val, -, mem⟩ := mem_flatMap.mp mem
  have small : ∀ index, (hexDigit index).toNat < 256 := fun index =>
    Nat.lt_trans (hexDigit_lt index) (by decide)
  rw [hexByte, mem_cons, mem_singleton] at mem
  obtain rfl | rfl := mem
  · exact small _
  · exact small _

theorem narrow_base64Encode (bytes : List UInt8) :
    ∀ unit ∈ base64Encode bytes, unit.toNat < 256 := by
  intro unit mem
  have small := UInt16.lt_iff_toNat_lt.mp (lt_of_mem_base64Encode bytes unit mem)
  exact Nat.lt_trans small (by decide)

/-- `StringBytes::Encode`, in hex -/
def toHex (bytes : List UInt8) : Str := newString (hexEncode bytes) (narrow_hexEncode bytes)

/-- `StringBytes::Encode`, in base64 -/
def toBase64 (bytes : List UInt8) : Str :=
  newString (base64Encode bytes) (narrow_base64Encode bytes)

section Platform

variable {bigEndian : Bool} {writeUtf8 : JSString → Nat → List UInt8} {units : JSString}
  {narrow : ∀ unit ∈ units, unit.toNat < 256}

theorem source_newString : (newString units narrow).source bigEndian = units := by
  rw [Str.source, Str.external, newString]
  by_cases short : units.length < externApex
  · simp only [if_pos short]
  simp only [if_neg short]
  exact map_oneByte narrow

theorem fromString_hex (bytes : List UInt8) :
    (toHex bytes).fromString bigEndian writeUtf8 (js "hex") = some bytes := by
  have even : (hexEncode bytes).length % 2 = 0 := by
    rw [length_hexEncode]
    omega
  have room : (toHex bytes).byteLength bigEndian (js "hex") = bytes.length := by
    have length : (toHex bytes).units.length = 2 * bytes.length := length_hexEncode bytes
    have half : (toHex bytes).byteLength bigEndian (js "hex") = (toHex bytes).units.length /
      2 := rfl
    omega
  have source : (toHex bytes).source bigEndian = hexEncode bytes := source_newString
  have written : (toHex bytes).fromString bigEndian writeUtf8 (js "hex") =
      if Encoding.hex = .hex ∧ (hexEncode bytes).length % 2 ≠ 0 then none
      else some ((hexDecode ((toHex bytes).source bigEndian)).take
        ((toHex bytes).byteLength bigEndian (js "hex"))) := rfl
  rw [written, if_neg (by simp [even]), source, room, hexDecode_hexEncode, take_length]

theorem fromString_base64_of_source {s : Str} (source : s.source bigEndian = units)
    (small : ∀ unit ∈ units, unit.toNat < 256)
    (room : (base64Decoding units).length ≤ s.size bigEndian .base64) :
    s.fromString bigEndian writeUtf8 (js "base64") = some (base64Decoding units) := by
  have written : s.fromString bigEndian writeUtf8 (js "base64") =
      if Encoding.base64 = .hex ∧ s.units.length % 2 ≠ 0 then none
      else some (base64Decode (s.size bigEndian .base64) (s.source bigEndian)) := rfl
  rw [written, if_neg (by simp), source, base64Decode_eq _ small, take_of_length_le room]

theorem base64Decoding_base64Encode (bytes : List UInt8) :
    base64Decoding (base64Encode bytes) = bytes := by
  have narrow := narrow_base64Encode bytes
  have whole := length_base64Decoding_le narrow
  rw [← take_of_length_le whole, ← base64Decode_eq _ narrow, base64Decode_base64Encode]

theorem fromString_toBase64 (bytes : List UInt8) :
    (toBase64 bytes).fromString bigEndian writeUtf8 (js "base64") = some bytes := by
  have whole := length_base64Decoding_le (narrow_base64Encode bytes)
  have source : (toBase64 bytes).source bigEndian = base64Encode bytes := source_newString
  rw [fromString_base64_of_source source (narrow_base64Encode bytes) ?_,
    base64Decoding_base64Encode]
  rw [size_external]
  by_cases short : (base64Encode bytes).length < externApex
  · simp only [toBase64, newString, if_pos short]
    exact whole
  simp only [toBase64, newString, if_neg short]
  refine whole.trans ?_
  by_cases empty : base64Encode bytes = []
  · rw [empty]
    exact Nat.le_refl 0
  · exact Nat.le_of_lt (base64DecodedSize_lt empty)

end Platform

/-- **Bytes come back** from hex and from base64, and of a string of single bytes, `new Buffer`
decodes all characters of the alphabet: the predicted size is never too small. -/
theorem codecs_round_trip (bigEndian : Bool) (writeUtf8 : JSString → Nat → List UInt8) :
    (∀ bytes, (toHex bytes).fromString bigEndian writeUtf8 (js "hex") = some bytes) ∧
      (∀ bytes, (toBase64 bytes).fromString bigEndian writeUtf8 (js "base64") = some bytes) ∧
      ∀ s : Str, s.storage = .internal → (∀ unit ∈ s.units, unit.toNat < 256) →
        s.fromString bigEndian writeUtf8 (js "base64") = some (base64Decoding s.units) ∧
          ∀ len, (base64Decode len s.units).length ≤ base64DecodedSize s.units := by
  refine ⟨fromString_hex, fromString_toBase64, ?_⟩
  intro s internal narrow
  have whole := length_base64Decoding_le narrow
  refine ⟨fromString_base64_of_source ?_ narrow ?_, ?_⟩
  · rw [Str.source, Str.external, internal]
  · rw [size_external, internal]
    exact whole
  intro len
  rw [base64Decode_eq len narrow, length_take]
  omega

/-- Characters that are skipped, and three digits that are left over -/
def skipped : JSString := js "Y-\n_h==YWI"

theorem codecs_round_trip_skipped : Str.fromString false (fun text _ => utf8Write text)
      ⟨skipped, .internal, fun narrow => absurd narrow (by decide)⟩ (js "base64") =
        some [0x63, 0xEF, 0xE1, 0x61, 0x62] := by
  have narrow : ∀ ch ∈ skipped, ch.toNat < 256 := by
    have all : skipped.all (fun ch => decide (ch.toNat < 256)) = true := by decide
    intro ch mem
    exact of_decide_eq_true (List.all_eq_true.mp all ch mem)
  have decoded := ((codecs_round_trip false fun text _ => utf8Write text).2.2
    ⟨skipped, .internal, fun narrow => absurd narrow (by decide)⟩ rfl narrow).1
  rw [decoded]
  decide

end IoJs.Buffer
