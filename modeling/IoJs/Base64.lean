import IoJs.Library.Bytes
import IoJs.Stream.Chunk
import Mathlib.Data.List.GetD
import Mathlib.Tactic.IntervalCases

/-!
# Base64

`base64_encode` and `base64_decode`. Three bytes make four digits; the last one or two bytes
make two or three, padded with `=`.

Groups of three bytes are encoded one after the other, so an encoding can be cut between two
groups (`base64Encode_append`), and decoding gives the bytes back (`base64Decode_base64Encode`).
-/

namespace IoJs

open IoJs.Library IoJs.Stream List

def base64Table : List Char :=
  ['A', 'B', 'C', 'D', 'E', 'F', 'G', 'H', 'I', 'J', 'K', 'L', 'M', 'N', 'O', 'P', 'Q', 'R', 'S',
    'T', 'U', 'V', 'W', 'X', 'Y', 'Z', 'a', 'b', 'c', 'd', 'e', 'f', 'g', 'h', 'i', 'j', 'k', 'l',
    'm', 'n', 'o', 'p', 'q', 'r', 's', 't', 'u', 'v', 'w', 'x', 'y', 'z', '0', '1', '2', '3', '4',
    '5', '6', '7', '8', '9', '+', '/']

/-- The code unit of `table[index]`. -/
def base64Digit (index : UInt8) : UInt16 := UInt16.ofNat ((base64Table.getD index.toNat '=').toNat)

/-- The code unit of `=`. -/
def base64Pad : UInt16 := UInt16.ofNat '='.toNat

def base64Encode : List UInt8 → JSString
  | a :: b :: c :: rest =>
    base64Digit (a >>> 2) :: base64Digit ((a &&& 3) <<< 4 ||| b >>> 4) ::
      base64Digit ((b &&& 0x0F) <<< 2 ||| c >>> 6) :: base64Digit (c &&& 0x3F) ::
        base64Encode rest
  | [a, b] =>
    [base64Digit (a >>> 2), base64Digit ((a &&& 3) <<< 4 ||| b >>> 4),
      base64Digit ((b &&& 0x0F) <<< 2), base64Pad]
  | [a] => [base64Digit (a >>> 2), base64Digit ((a &&& 3) <<< 4), base64Pad, base64Pad]
  | [] => []

/-- The first half of `unbase64_table`. -/
def unbase64Table : List Int :=
  [-1, -1, -1, -1, -1, -1, -1, -1, -1, -1, -2, -1, -1, -2, -1, -1,
    -1, -1, -1, -1, -1, -1, -1, -1, -1, -1, -1, -1, -1, -1, -1, -1,
    -2, -1, -1, -1, -1, -1, -1, -1, -1, -1, -1, 62, -1, 62, -1, 63,
    52, 53, 54, 55, 56, 57, 58, 59, 60, 61, -1, -1, -1, -1, -1, -1,
    -1,  0,  1,  2,  3,  4,  5,  6,  7,  8,  9, 10, 11, 12, 13, 14,
    15, 16, 17, 18, 19, 20, 21, 22, 23, 24, 25, -1, -1, -1, -1, 63,
    -1, 26, 27, 28, 29, 30, 31, 32, 33, 34, 35, 36, 37, 38, 39, 40,
    41, 42, 43, 44, 45, 46, 47, 48, 49, 50, 51, -1, -1, -1, -1, -1]

/-- `unbase64(x)`; the second half of the table has `-1` only. -/
def unbase64 (unit : UInt16) : Int := unbase64Table.getD unit.toUInt8.toNat (-1)

/-- The next digit, with what follows: the loop that skips other characters, and the test
after it. -/
def nextDigit : List UInt16 → Option (UInt8 × List UInt16)
  | [] => none
  | unit :: src =>
    if unbase64 unit < 0 then nextDigit src
    else if unit = base64Pad then none
    else some (UInt8.ofNat (unbase64 unit).toNat, src)

/-- `base64_decode`, into a buffer of `room` bytes. -/
def base64Decode : Nat → List UInt16 → List UInt8
  | 0, _ => []
  | room + 1, src =>
    match nextDigit src with
    | none => []
    | some (a, src) =>
      match nextDigit src with
      | none => []
      | some (b, src) =>
        (a <<< 2 ||| (b &&& 0x30) >>> 4) ::
          match room with
          | 0 => []
          | room + 1 =>
            match nextDigit src with
            | none => []
            | some (c, src) =>
              ((b &&& 0x0F) <<< 4 ||| (c &&& 0x3C) >>> 2) ::
                match room with
                | 0 => []
                | room + 1 =>
                  match nextDigit src with
                  | none => []
                  | some (d, src) => ((c &&& 0x03) <<< 6 ||| d &&& 0x3F) :: base64Decode room src

def base64DecodedSizeFast (size : Nat) : Nat :=
  let remainder := size % 4
  let size := size / 4 * 3
  if remainder = 0 then size
  else if size = 0 ∧ remainder = 1 then 0
  else size + 1 + if remainder = 3 then 1 else 0

def base64DecodedSize (src : List UInt16) : Nat :=
  if src = [] then 0
  else
    let src := if src.getLast? = some base64Pad then src.dropLast else src
    let src := if src.getLast? = some base64Pad then src.dropLast else src
    base64DecodedSizeFast src.length

/-! ## Groups -/

theorem base64Encode_append {left : List UInt8} (right : List UInt8)
    (aligned : left.length % 3 = 0) :
    base64Encode (left ++ right) = base64Encode left ++ base64Encode right := by
  induction left using base64Encode.induct with
  | case1 a b c rest ih =>
    have aligned : rest.length % 3 = 0 := by
      simp only [length_cons] at aligned
      omega
    simp only [cons_append, base64Encode, ih aligned]
  | case2 a b => simp at aligned
  | case3 a => simp at aligned
  | case4 => rfl

/-! ## Digits -/

theorem nextDigit_digit (index : UInt8) (small : index.toNat < 64) (src : List UInt16) :
    nextDigit (base64Digit index :: src) = some (index, src) := by
  have found : unbase64 (base64Digit index) = index.toNat :=
    forall_byte_lt 64 (P := fun i => unbase64 (base64Digit i) = i.toNat) (by decide) index small
  have other : base64Digit index ≠ base64Pad :=
    forall_byte_lt 64 (P := fun i => base64Digit i ≠ base64Pad) (by decide) index small
  rw [nextDigit, found, if_neg (by omega), if_neg other]
  simp

theorem base64Digit_lt (index : UInt8) : base64Digit index < 0x80 := by
  by_cases small : index.toNat < 64
  · exact forall_byte_lt 64 (P := fun i => base64Digit i < 0x80) (by decide) index small
  have outside : base64Table.getD index.toNat '=' = '=' :=
    getD_eq_default _ _ (Nat.le_of_not_lt small)
  rw [base64Digit, outside]
  decide

theorem lt_of_mem_base64Encode (bytes : List UInt8) : ∀ unit ∈ base64Encode bytes, unit < 0x80 := by
  have pad : base64Pad < 0x80 := by decide
  induction bytes using base64Encode.induct with
  | case1 a b c rest ih =>
    simp only [base64Encode, forall_mem_cons]
    exact ⟨base64Digit_lt _, base64Digit_lt _, base64Digit_lt _, base64Digit_lt _, ih⟩
  | case2 a b =>
    simp only [base64Encode, forall_mem_cons]
    exact ⟨base64Digit_lt _, base64Digit_lt _, base64Digit_lt _, pad, by simp⟩
  | case3 a =>
    simp only [base64Encode, forall_mem_cons]
    exact ⟨base64Digit_lt _, base64Digit_lt _, pad, pad, by simp⟩
  | case4 => simp [base64Encode]

/-! ## The way back -/

section Bits

variable (a b c : UInt8)

theorem high_bits_lt : (a >>> 2).toNat < 64 := by
  have bound := a.toNat_lt
  simp only [UInt8.toNat_shiftRight, Nat.shiftRight_eq_div_pow]
  show a.toNat / 2 ^ 2 < 64
  omega

theorem low_bits_lt : (c &&& 0x3F).toNat < 64 := by
  exact toNat_and_lt c 0x3F (show UInt8.toNat 0x3F < 2 ^ 6 by decide)

theorem first_bits_lt : ((a &&& 3) <<< 4 ||| b >>> 4).toNat < 64 := by
  have same : (a &&& 3) <<< 4 ||| b >>> 4 = ((a &&& 3) <<< 4 ||| b >>> 4) &&& 0x3F := by
    apply UInt8.eq_of_toBitVec_eq
    ext i inside
    interval_cases i <;> simp
  rw [same]
  exact low_bits_lt _

theorem second_bits_lt : ((b &&& 0x0F) <<< 2 ||| c >>> 6).toNat < 64 := by
  have same : (b &&& 0x0F) <<< 2 ||| c >>> 6 = ((b &&& 0x0F) <<< 2 ||| c >>> 6) &&& 0x3F := by
    apply UInt8.eq_of_toBitVec_eq
    ext i inside
    interval_cases i <;> simp
  rw [same]
  exact low_bits_lt _

theorem first_byte : (a >>> 2) <<< 2 ||| (((a &&& 3) <<< 4 ||| b >>> 4) &&& 0x30) >>> 4 = a := by
  apply UInt8.eq_of_toBitVec_eq
  ext i inside
  interval_cases i <;> simp

theorem second_byte : (((a &&& 3) <<< 4 ||| b >>> 4) &&& 0x0F) <<< 4 |||
    (((b &&& 0x0F) <<< 2 ||| c >>> 6) &&& 0x3C) >>> 2 = b := by
  apply UInt8.eq_of_toBitVec_eq
  ext i inside
  interval_cases i <;> simp

theorem third_byte :
    (((b &&& 0x0F) <<< 2 ||| c >>> 6) &&& 0x03) <<< 6 ||| (c &&& 0x3F) &&& 0x3F = c := by
  apply UInt8.eq_of_toBitVec_eq
  ext i inside
  interval_cases i <;> simp

/-! A last group has zero for the bytes that are missing. -/

theorem padded_first_bits_lt : ((a &&& 3) <<< 4).toNat < 64 := by simpa using first_bits_lt a 0

theorem padded_second_bits_lt : ((b &&& 0x0F) <<< 2).toNat < 64 := by simpa using second_bits_lt b 0

theorem padded_first_byte : (a >>> 2) <<< 2 ||| ((a &&& 3) <<< 4 &&& 0x30) >>> 4 = a := by
  apply UInt8.eq_of_toBitVec_eq
  ext i inside
  interval_cases i <;> simp

theorem padded_second_byte :
    (((a &&& 3) <<< 4 ||| b >>> 4) &&& 0x0F) <<< 4 ||| ((b &&& 0x0F) <<< 2 &&& 0x3C) >>> 2 = b := by
  apply UInt8.eq_of_toBitVec_eq
  ext i inside
  interval_cases i <;> simp

end Bits

section

variable (bytes : List UInt8)

theorem base64Decode_length : base64Decode bytes.length (base64Encode bytes) = bytes := by
  induction bytes using base64Encode.induct with
  | case1 a b c rest ih =>
    simp only [base64Encode, length_cons, base64Decode,
      nextDigit_digit _ (high_bits_lt a), nextDigit_digit _ (first_bits_lt a b),
      nextDigit_digit _ (second_bits_lt b c), nextDigit_digit _ (low_bits_lt c), ih,
      first_byte, second_byte, third_byte]
  | case2 a b =>
    simp only [base64Encode, length_cons, length_nil, Nat.zero_add, base64Decode,
      nextDigit_digit _ (high_bits_lt a), nextDigit_digit _ (first_bits_lt a b),
      nextDigit_digit _ (padded_second_bits_lt b), first_byte, padded_second_byte]
  | case3 a =>
    simp only [base64Encode, length_cons, length_nil, Nat.zero_add, base64Decode,
      nextDigit_digit _ (high_bits_lt a), nextDigit_digit _ (padded_first_bits_lt a),
      padded_first_byte]
  | case4 => rfl

theorem base64Encode_eq_append : ∃ digits : List UInt16, (∀ unit ∈ digits, unit ≠ base64Pad) ∧
    digits.length = (bytes.length * 4 + 2) / 3 ∧
    base64Encode bytes = digits ++ List.replicate ((3 - bytes.length % 3) % 3) base64Pad := by
  have digit : ∀ index : UInt8, index.toNat < 64 → base64Digit index ≠ base64Pad :=
    forall_byte_lt 64 (P := fun i => base64Digit i ≠ base64Pad) (by decide)
  induction bytes using base64Encode.induct with
  | case1 a b c rest ih =>
    obtain ⟨digits, pure, length, eq⟩ := ih
    refine ⟨base64Digit (a >>> 2) :: base64Digit ((a &&& 3) <<< 4 ||| b >>> 4) ::
      base64Digit ((b &&& 0x0F) <<< 2 ||| c >>> 6) :: base64Digit (c &&& 0x3F) :: digits,
      ?_, ?_, ?_⟩
    · simp only [forall_mem_cons]
      exact ⟨digit _ (high_bits_lt a), digit _ (first_bits_lt a b),
        digit _ (second_bits_lt b c), digit _ (low_bits_lt c), pure⟩
    · simp only [length_cons, length]
      omega
    have groups : (rest.length + 1 + 1 + 1) % 3 = rest.length % 3 := by omega
    simp only [base64Encode, length_cons, eq, cons_append, groups]
  | case2 a b =>
    refine ⟨[base64Digit (a >>> 2), base64Digit ((a &&& 3) <<< 4 ||| b >>> 4),
      base64Digit ((b &&& 0x0F) <<< 2)], ?_, by simp, by simp [base64Encode]⟩
    simp only [forall_mem_cons]
    exact ⟨digit _ (high_bits_lt a), digit _ (first_bits_lt a b),
      digit _ (padded_second_bits_lt b), by simp⟩
  | case3 a =>
    refine ⟨[base64Digit (a >>> 2), base64Digit ((a &&& 3) <<< 4)], ?_, by simp,
      by simp [base64Encode]⟩
    simp only [forall_mem_cons]
    exact ⟨digit _ (high_bits_lt a), digit _ (padded_first_bits_lt a), by simp⟩
  | case4 => exact ⟨[], by simp, rfl, rfl⟩

theorem base64DecodedSize_base64Encode : base64DecodedSize (base64Encode bytes) = bytes.length := by
  obtain ⟨digits, pure, length, eq⟩ := base64Encode_eq_append bytes
  have last : digits.getLast? ≠ some base64Pad := by
    intro same
    exact pure _ (mem_of_getLast? same) rfl
  have fast : base64DecodedSizeFast digits.length = bytes.length := by
    simp only [base64DecodedSizeFast]
    split
    · omega
    split
    · omega
    split <;> omega
  have cases : bytes.length % 3 = 0 ∨ bytes.length % 3 = 1 ∨ bytes.length % 3 = 2 := by omega
  rw [eq]
  rcases cases with zero | one | two
  · simp only [zero, Nat.sub_zero, Nat.mod_self, replicate_zero, append_nil,
      base64DecodedSize, if_neg last, fast]
    split
    · rename_i empty
      rw [← fast, empty]
      rfl
    · rfl
  · have pads : digits ++ List.replicate ((3 - 1) % 3) base64Pad =
        digits ++ [base64Pad] ++ [base64Pad] := by simp
    rw [one, pads]
    simp [base64DecodedSize, fast]
  have pads : digits ++ List.replicate ((3 - 2) % 3) base64Pad = digits ++ [base64Pad] := rfl
  rw [two, pads]
  simp [base64DecodedSize, fast, last]

theorem base64Decode_base64Encode :
    base64Decode (base64DecodedSize (base64Encode bytes)) (base64Encode bytes) = bytes := by
  rw [base64DecodedSize_base64Encode]
  exact base64Decode_length bytes

end

end IoJs
