import IoJs.Buffer.Numbers
import Mathlib.Algebra.BigOperators.Group.Finset.Basic

/-!
# What the readers of numbers read

The value of some bytes is the sum of the bytes times the powers of 256; a number with a sign is
that value, less a power of two if its top bit is set. All readers give these values
(`readers_agree`), whether they add bytes up or join them with the operators on 32 bits.
-/

namespace IoJs.Buffer

open IoJs.Library.Int32

variable {buffer : List UInt8} {index : ℕ → ℕ}

/-- The value of the bytes at some indices, the lowest one first -/
def value (buffer : List UInt8) (index : ℕ → ℕ) (bytes : ℕ) : ℕ :=
  ∑ i ∈ Finset.range bytes, element buffer (index i) * 256 ^ i

/-- The number with a sign that has these bytes -/
def signed (bytes value : ℕ) : ℤ :=
  if value.testBit (8 * bytes - 1) then (value : ℤ) - 2 ^ (8 * bytes) else value

/-- What is read of a range of bytes, if it fits -/
def ranged (buffer : List UInt8) (offset : ℚ) (bytes : ℕ) (read : ℤ) : Except Thrown ℤ :=
  if toUint32 offset + bytes ≤ buffer.length then .ok read
  else .error (.rangeError "index out of range")

section

variable (buffer : List UInt8)

theorem element_lt (i : ℕ) : element buffer i < 256 := UInt8.toNat_lt _

theorem value_succ (index : ℕ → ℕ) (bytes : ℕ) : value buffer index (bytes + 1) =
    value buffer index bytes + element buffer (index bytes) * 256 ^ bytes :=
  Finset.sum_range_succ _ _

theorem value_lt (index : ℕ → ℕ) (bytes : ℕ) : value buffer index bytes < 256 ^ bytes := by
  induction bytes with
  | zero => exact Nat.one_pos
  | succ bytes ih =>
    have top : element buffer (index bytes) * 256 ^ bytes ≤ 255 * 256 ^ bytes :=
      Nat.mul_le_mul_right _ (Nat.le_of_lt_succ (element_lt buffer _))
    rw [value_succ, pow_succ]
    omega

end

/-! ## The generic readers -/

theorem readLoop_eq (rounds i : ℕ) :
    readLoop buffer index rounds i (256 ^ i) (value buffer index (i + 1)) =
      (256 ^ (i + rounds), value buffer index (i + rounds + 1)) := by
  induction rounds generalizing i with
  | zero => rfl
  | succ rounds ih =>
    have next := ih (i + 1)
    have later : i + 1 + rounds = i + (rounds + 1) := by omega
    rw [value_succ, pow_succ, later] at next
    exact next

theorem readLoop_all (byteLength : ByteLength) :
    readLoop buffer index (byteLength.bytes - 1) 0 1 (element buffer (index 0)) =
      (256 ^ (byteLength.bytes - 1), value buffer index byteLength.bytes) := by
  have pos := byteLength.pos
  have first : value buffer index 1 = element buffer (index 0) := by simp [value]
  have all := @readLoop_eq buffer index (byteLength.bytes - 1) 0
  have last : byteLength.bytes - 1 + 1 = byteLength.bytes := Nat.sub_add_cancel pos
  rw [pow_zero, Nat.zero_add, Nat.zero_add, last, first] at all
  exact all

theorem readUInt_eq (byteLength : ByteLength) :
    readUInt buffer index byteLength.bytes = value buffer index byteLength.bytes := by
  rw [readUInt, readLoop_all]

theorem testBit_top {bytes n : ℕ} (pos : 0 < bytes) (lt : n < 256 ^ bytes) :
    n.testBit (8 * bytes - 1) = decide (256 ^ (bytes - 1) * 0x80 ≤ n) := by
  obtain ⟨k, rfl⟩ := Nat.exists_eq_succ_of_ne_zero (Nat.ne_of_gt pos)
  have half : 2 ^ (8 * (k + 1) - 1) = 256 ^ k * 0x80 := by
    have bits : 8 * (k + 1) - 1 = 8 * k + 7 := by omega
    rw [bits, pow_add, pow_mul]
    rfl
  have whole : n < 2 ^ (8 * (k + 1) - 1) * 2 := by
    rw [half, mul_assoc]
    exact lt
  have quotient : n / 2 ^ (8 * (k + 1) - 1) < 2 := Nat.div_lt_of_lt_mul whole
  have reached := Nat.one_le_div_iff (a := n) (Nat.two_pow_pos (8 * (k + 1) - 1))
  have low : k + 1 - 1 = k := rfl
  rw [Nat.testBit_eq_decide_div_mod_eq, Nat.mod_eq_of_lt quotient, decide_eq_decide, low, ← half,
    ← reached]
  omega

theorem readInt_eq (byteLength : ByteLength) : readInt buffer index byteLength.bytes =
    signed byteLength.bytes (value buffer index byteLength.bytes) := by
  have lt := value_lt buffer index byteLength.bytes
  rw [readInt, readLoop_all, signed, testBit_top byteLength.pos lt]
  simp only [ge_iff_le, decide_eq_true_eq]

/-! ## Bytes joined by the operators -/

section Joins

variable {a b c d : ℕ} {n k : ℕ}

theorem toNat_element (byte : n < 256) : (bits n).toNat = n :=
  toNat_bits_natCast (Nat.lt_trans byte (by decide))

theorem toNat_join {low : BitVec 32} (byte : n < 256) (lt : low.toNat < 2 ^ k)
    (room : n * 2 ^ k < 2 ^ 32) : (low ||| bits n <<< k).toNat = low.toNat + n * 2 ^ k := by
  have shifted : (bits n <<< k).toNat = n * 2 ^ k := by
    have kept := toNat_element byte
    rw [toNat_shiftLeft_of_lt (by rwa [kept]), kept]
  have joined : (bits n <<< k ||| low).toNat = n * 2 ^ k + low.toNat := by
    rw [toNat_or_of_dvd (Dvd.intro_left n shifted.symm) lt, shifted]
  rw [BitVec.or_comm, joined, Nat.add_comm]

section

variable (ha : a < 256) (hb : b < 256)
include ha hb

theorem toNat_join_two : (bits a ||| bits b <<< 8).toNat = a + b * 2 ^ 8 := by
  have low := toNat_element ha
  rw [toNat_join hb (by omega) (by omega), low]

theorem toNat_join_three (hc : c < 256) :
    (bits a ||| bits b <<< 8 ||| bits c <<< 16).toNat = a + b * 2 ^ 8 + c * 2 ^ 16 := by
  have low := toNat_join_two ha hb
  rw [toNat_join hc (by omega) (by omega), low]

theorem toNat_join_four (hc : c < 256) (hd : d < 256) :
    (bits a ||| bits b <<< 8 ||| bits c <<< 16 ||| bits d <<< 24).toNat =
      a + b * 2 ^ 8 + c * 2 ^ 16 + d * 2 ^ 24 := by
  have low := toNat_join_three ha hb hc
  rw [toNat_join hd (by omega) (by omega), low]

end

theorem bitAnd_eq_zero_iff {mask : ℤ} (one : bits mask = BitVec.twoPow 32 k) (small : k < 32)
    (lt : n < 2 ^ 32) : bitAnd n mask = 0 ↔ n.testBit k = false := by
  have masked :
    bitAnd n mask = (if (bits n).getLsbD k then BitVec.twoPow 32 k else 0#32).toInt := by
    rw [bitAnd, one, BitVec.and_twoPow]
  have bit : (bits n).getLsbD k = n.testBit k := by
    rw [← BitVec.testBit_toNat, toNat_bits_natCast lt]
  rw [masked, bit]
  cases n.testBit k with
  | false => simp
  | true =>
    have set : (BitVec.twoPow 32 k).toInt ≠ (0#32).toInt := by
      intro zero
      have same := congrArg BitVec.toNat (BitVec.eq_of_toInt_eq zero)
      rw [BitVec.toNat_twoPow_of_lt small] at same
      exact absurd same (Nat.ne_of_gt (Nat.two_pow_pos k))
    simpa using set

section

variable (ha : a < 256) (hb : b < 256)
include ha hb

theorem or_two : bitOr a (shiftLeft b 8) = (a + b * 2 ^ 8 : ℕ) := by
  have joined := toNat_join_two ha hb
  have small : ¬ 2 ^ 31 ≤ (bits a ||| bits b <<< 8).toNat := by omega
  rw [bitOr, bits_shiftLeft, toInt_eq, if_neg small, joined]

theorem or_three (hc : c < 256) :
    bitOr (bitOr a (shiftLeft b 8)) (shiftLeft c 16) = (a + b * 2 ^ 8 + c * 2 ^ 16 : ℕ) := by
  have joined := toNat_join_three ha hb hc
  have small : ¬ 2 ^ 31 ≤ (bits a ||| bits b <<< 8 ||| bits c <<< 16).toNat := by omega
  rw [bitOr, bits_bitOr, bits_shiftLeft, bits_shiftLeft, toInt_eq, if_neg small, joined]

theorem or_three_add (hc : c < 256) (d : ℕ) :
    bitOr (bitOr a (shiftLeft b 8)) (shiftLeft c 16) + d * 0x1000000 =
      (a + b * 2 ^ 8 + c * 2 ^ 16 + d * 2 ^ 24 : ℕ) := by
  rw [or_three ha hb hc]
  push_cast
  rfl

theorem or_four (hc : c < 256) (hd : d < 256) :
    bitOr (bitOr (bitOr a (shiftLeft b 8)) (shiftLeft c 16)) (shiftLeft d 24) =
      signed 4 (a + b * 2 ^ 8 + c * 2 ^ 16 + d * 2 ^ 24) := by
  have joined := toNat_join_four ha hb hc hd
  rw [bitOr, bits_bitOr, bits_bitOr, bits_shiftLeft, bits_shiftLeft, bits_shiftLeft, toInt_eq,
    joined, signed,
    testBit_top (by decide) (by omega)]
  simp only [decide_eq_true_eq]
  rfl

end

theorem extend_two (lt : n < 2 ^ 16) :
    (if bitAnd n 0x8000 ≠ 0 then bitOr n 0xFFFF0000 else (n : ℤ)) = signed 2 n := by
  have mask : bits 0x8000 = BitVec.twoPow 32 15 := by decide
  have bit := bitAnd_eq_zero_iff mask (by decide) (Nat.lt_trans lt (by decide))
  have kept : (bits n).toNat = n := toNat_bits_natCast (Nat.lt_trans lt (by decide))
  have high : (bits 0xFFFF0000).toNat = 0xFFFF0000 := by decide
  have joined : (bits n ||| bits 0xFFFF0000).toNat = 0xFFFF0000 + n := by
    rw [BitVec.or_comm, toNat_or_of_dvd (k := 16) (by rw [high]; decide) (by rwa [kept]),
      high, kept]
  by_cases top : n.testBit 15
  · have set : bitAnd n 0x8000 ≠ 0 := by
      rw [ne_eq, bit, top]
      decide
    have large : 2 ^ 31 ≤ (bits n ||| bits 0xFFFF0000).toNat := by omega
    rw [if_pos set, signed, if_pos top, bitOr, toInt_eq, if_pos large, joined]
    omega
  rw [Bool.not_eq_true] at top
  have clear : ¬ bitAnd n 0x8000 ≠ 0 := not_not.mpr (bit.mpr top)
  rw [if_neg clear, signed, if_neg (ne_true_of_eq_false top)]

theorem extend_one (lt : n < 2 ^ 8) :
    (if bitAnd n 0x80 = 0 then (n : ℤ) else (0xff - n + 1) * -1) = signed 1 n := by
  have mask : bits 0x80 = BitVec.twoPow 32 7 := by decide
  have bit := bitAnd_eq_zero_iff mask (by decide) (Nat.lt_trans lt (by decide))
  have complement : (0xff - (n : ℤ) + 1) * -1 = n - 2 ^ 8 := by omega
  by_cases top : n.testBit 7
  · have set : bitAnd n 0x80 ≠ 0 := by
      rw [ne_eq, bit, top]
      decide
    rw [if_neg set, signed, if_pos top, complement]
  rw [Bool.not_eq_true] at top
  rw [if_pos (bit.mpr top), signed, if_neg (ne_true_of_eq_false top)]

end Joins

/-! ## All readers -/

theorem checkOffset_bind (offset : ℚ) (bytes : ℕ) (read : ℤ) :
    (do checkOffset (toUint32 offset) bytes buffer.length; return read) =
      ranged buffer offset bytes read := by
  by_cases fits : toUint32 offset + bytes ≤ buffer.length
  · rw [ranged, if_pos fits, checkOffset, if_neg (by omega)]
    rfl
  rw [ranged, if_neg fits, checkOffset, if_pos (by omega)]
  rfl

/-- The widths of the other readers -/
def ByteLength.one : ByteLength := ⟨1, by decide, by decide⟩
def ByteLength.two : ByteLength := ⟨2, by decide, by decide⟩
def ByteLength.four : ByteLength := ⟨4, by decide, by decide⟩

section Values

variable (buffer) (offset : ℕ)

theorem value_one (index : ℕ → ℕ) : value buffer index 1 = element buffer (index 0) := by
  simp [value]

theorem value_upward_two : value buffer (upward offset) 2 =
    element buffer offset + element buffer (offset + 1) * 2 ^ 8 := by
  simp [value, Finset.sum_range_succ, upward]

theorem value_downward_two : value buffer (downward offset 2) 2 =
    element buffer (offset + 1) + element buffer offset * 2 ^ 8 := by
  simp [value, Finset.sum_range_succ, downward]

theorem value_upward_four : value buffer (upward offset) 4 =
    element buffer offset + element buffer (offset + 1) * 2 ^ 8 +
      element buffer (offset + 2) * 2 ^ 16 + element buffer (offset + 3) * 2 ^ 24 := by
  simp [value, Finset.sum_range_succ, upward]

theorem value_downward_four : value buffer (downward offset 4) 4 =
    element buffer (offset + 3) + element buffer (offset + 2) * 2 ^ 8 +
      element buffer (offset + 1) * 2 ^ 16 + element buffer offset * 2 ^ 24 := by
  simp [value, Finset.sum_range_succ, downward]

end Values

section Readers

variable (buffer) (offset : ℚ)

theorem readers_value (byteLength : ByteLength) :
    readUIntLE buffer offset byteLength = ranged buffer offset byteLength.bytes
      (value buffer (upward (toUint32 offset)) byteLength.bytes) ∧
    readUIntBE buffer offset byteLength = ranged buffer offset byteLength.bytes
      (value buffer (downward (toUint32 offset) byteLength.bytes) byteLength.bytes) ∧
    readIntLE buffer offset byteLength = ranged buffer offset byteLength.bytes
      (signed byteLength.bytes (value buffer (upward (toUint32 offset)) byteLength.bytes)) ∧
    readIntBE buffer offset byteLength = ranged buffer offset byteLength.bytes
      (signed byteLength.bytes
        (value buffer (downward (toUint32 offset) byteLength.bytes) byteLength.bytes)) := by
  refine ⟨?_, ?_, ?_, ?_⟩
  · rw [← readUInt_eq, ← checkOffset_bind]
    rfl
  · rw [← readUInt_eq, ← checkOffset_bind]
    rfl
  · rw [← readInt_eq, ← checkOffset_bind]
    rfl
  rw [← readInt_eq, ← checkOffset_bind]
  rfl

theorem readers_one : readUInt8 buffer offset =
      ranged buffer offset 1 (value buffer (upward (toUint32 offset)) 1) ∧
    readInt8 buffer offset =
      ranged buffer offset 1 (signed 1 (value buffer (upward (toUint32 offset)) 1)) := by
  rw [value_one, ← checkOffset_bind, ← extend_one (element_lt buffer _), ← checkOffset_bind]
  exact ⟨rfl, rfl⟩

theorem readers_two : readUInt16LE buffer offset =
      ranged buffer offset 2 (value buffer (upward (toUint32 offset)) 2) ∧
    readUInt16BE buffer offset =
      ranged buffer offset 2 (value buffer (downward (toUint32 offset) 2) 2) ∧
    readInt16LE buffer offset =
      ranged buffer offset 2 (signed 2 (value buffer (upward (toUint32 offset)) 2)) ∧
    readInt16BE buffer offset =
      ranged buffer offset 2 (signed 2 (value buffer (downward (toUint32 offset) 2) 2)) := by
  have byte := element_lt buffer
  have upper := value_upward_two buffer (toUint32 offset)
  have downer := value_downward_two buffer (toUint32 offset)
  have first := or_two (byte (toUint32 offset)) (byte (toUint32 offset + 1))
  have second := or_two (byte (toUint32 offset + 1)) (byte (toUint32 offset))
  rw [← upper] at first
  rw [← downer] at second
  have small (index : ℕ → ℕ) : value buffer index 2 < 2 ^ 16 := value_lt buffer index 2
  rw [← extend_two (small _), ← extend_two (small _)]
  refine ⟨?_, ?_, ?_, ?_⟩
  · rw [← checkOffset_bind, ← first]
    rfl
  · rw [← checkOffset_bind, ← second, bitOr_comm]
    rfl
  · rw [← checkOffset_bind, ← first]
    rfl
  rw [← checkOffset_bind, ← second]
  rfl

theorem readers_four : readUInt32LE buffer offset =
      ranged buffer offset 4 (value buffer (upward (toUint32 offset)) 4) ∧
    readUInt32BE buffer offset =
      ranged buffer offset 4 (value buffer (downward (toUint32 offset) 4) 4) ∧
    readInt32LE buffer offset =
      ranged buffer offset 4 (signed 4 (value buffer (upward (toUint32 offset)) 4)) ∧
    readInt32BE buffer offset =
      ranged buffer offset 4 (signed 4 (value buffer (downward (toUint32 offset) 4) 4)) := by
  have byte := element_lt buffer
  rw [value_upward_four, value_downward_four, ← or_four (byte _) (byte _) (byte _) (byte _),
    ← or_four (byte _) (byte _) (byte _) (byte _), ← or_three_add (byte _) (byte _) (byte _),
    ← or_three_add (byte _) (byte _) (byte _)]
  have three (x y z : ℤ) : bitOr (bitOr x y) z = bitOr (bitOr z y) x := by ac_rfl
  have four (x y z w : ℤ) : bitOr (bitOr (bitOr x y) z) w = bitOr (bitOr (bitOr w z) y) x := by
    ac_rfl
  refine ⟨?_, ?_, ?_, ?_⟩
  · rw [← checkOffset_bind]
    rfl
  · rw [← checkOffset_bind, three (element buffer (toUint32 offset + 3)), Int.add_comm]
    rfl
  · rw [← checkOffset_bind]
    rfl
  rw [← checkOffset_bind, four (element buffer (toUint32 offset + 3))]
  rfl

end Readers

/-- **All readers agree.**  In range, the generic ones read the sum of the bytes times the powers of
256, in either order, and with a sign they subtract a power of two if the top bit is set; those of a
fixed width read the same. Out of range, all of them throw. -/
theorem readers_agree (buffer : List UInt8) (offset : ℚ) : (∀ n : ByteLength,
      readUIntLE buffer offset n =
        ranged buffer offset n.bytes (value buffer (upward (toUint32 offset)) n.bytes) ∧
      readUIntBE buffer offset n =
        ranged buffer offset n.bytes (value buffer (downward (toUint32 offset) n.bytes) n.bytes) ∧
      readIntLE buffer offset n = ranged buffer offset n.bytes
        (signed n.bytes (value buffer (upward (toUint32 offset)) n.bytes)) ∧
      readIntBE buffer offset n = ranged buffer offset n.bytes
        (signed n.bytes (value buffer (downward (toUint32 offset) n.bytes) n.bytes))) ∧
    (readUIntLE buffer offset .one = readUInt8 buffer offset ∧
      readUIntBE buffer offset .one = readUInt8 buffer offset ∧
      readIntLE buffer offset .one = readInt8 buffer offset ∧
      readIntBE buffer offset .one = readInt8 buffer offset) ∧
    (readUIntLE buffer offset .two = readUInt16LE buffer offset ∧
      readUIntBE buffer offset .two = readUInt16BE buffer offset ∧
      readIntLE buffer offset .two = readInt16LE buffer offset ∧
      readIntBE buffer offset .two = readInt16BE buffer offset) ∧
    readUIntLE buffer offset .four = readUInt32LE buffer offset ∧
      readUIntBE buffer offset .four = readUInt32BE buffer offset ∧
      readIntLE buffer offset .four = readInt32LE buffer offset ∧
      readIntBE buffer offset .four = readInt32BE buffer offset := by
  have generic := readers_value buffer offset
  refine ⟨generic, ?_, ?_, ?_⟩
  · obtain ⟨unsignedLE, unsignedBE, signedLE, signedBE⟩ := generic .one
    obtain ⟨eight, eightSigned⟩ := readers_one buffer offset
    rw [unsignedLE, unsignedBE, signedLE, signedBE, eight, eightSigned]
    exact ⟨rfl, rfl, rfl, rfl⟩
  · obtain ⟨unsignedLE, unsignedBE, signedLE, signedBE⟩ := generic .two
    obtain ⟨wordLE, wordBE, wordSignedLE, wordSignedBE⟩ := readers_two buffer offset
    rw [unsignedLE, unsignedBE, signedLE, signedBE, wordLE, wordBE, wordSignedLE, wordSignedBE]
    exact ⟨rfl, rfl, rfl, rfl⟩
  obtain ⟨unsignedLE, unsignedBE, signedLE, signedBE⟩ := generic .four
  obtain ⟨longLE, longBE, longSignedLE, longSignedBE⟩ := readers_four buffer offset
  rw [unsignedLE, unsignedBE, signedLE, signedBE, longLE, longBE, longSignedLE, longSignedBE]
  exact ⟨rfl, rfl, rfl, rfl⟩

end IoJs.Buffer
