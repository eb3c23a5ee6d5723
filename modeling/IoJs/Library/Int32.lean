import Mathlib.Data.Rat.Floor

/-!
# Numbers cut to 32 bits

The conversions `ToInt32` and `ToUint32` of ECMAScript, and the operators on 32 bits. A number is
truncated toward zero, and taken modulo 2³².
-/

namespace IoJs.Library.Int32

/-- The integer part of a number -/
def truncate (x : ℚ) : ℤ := if 0 ≤ x then ⌊x⌋ else ⌈x⌉

/-- The 32 bits of an integer -/
def bits (x : ℤ) : BitVec 32 := BitVec.ofInt 32 x

/-- `ToInt32`, which is `x >> 0` -/
def toInt32 (x : ℚ) : ℤ := (bits (truncate x)).toInt

/-- `ToUint32`, which is `x >>> 0` -/
def toUint32 (x : ℚ) : ℕ := (bits (truncate x)).toNat

/-- `x & y` -/
def bitAnd (x y : ℤ) : ℤ := (bits x &&& bits y).toInt

/-- `x | y` -/
def bitOr (x y : ℤ) : ℤ := (bits x ||| bits y).toInt

/-- `x << count` -/
def shiftLeft (x : ℤ) (count : ℕ) : ℤ := (bits x <<< count).toInt

/-- `x >>> count` -/
def shiftRight (x : ℤ) (count : ℕ) : ℤ := (bits x >>> count).toNat

/-! ## Integer parts -/

theorem truncate_div (x : ℤ) (d : ℕ) :
    truncate ((x : ℚ) / d) = if 0 ≤ x then x / d else -(-x / d) := by
  by_cases zero : d = 0
  · simp [zero, truncate]
  have pos : (0 : ℚ) < d := by exact_mod_cast Nat.pos_of_ne_zero zero
  have sign : (0 : ℚ) ≤ (x : ℚ) / d ↔ 0 ≤ x := by
    rw [le_div_iff₀ pos, zero_mul]
    exact_mod_cast Iff.rfl
  simp only [truncate, sign, Rat.floor_intCast_div_natCast, Rat.ceil_intCast_div_natCast]

@[simp]
theorem truncate_intCast (x : ℤ) : truncate x = x := by
  rw [truncate, Int.floor_intCast, Int.ceil_intCast, ite_self]

variable {x : ℚ} {bound : ℤ}

theorem truncate_le (le : x ≤ bound) : truncate x ≤ bound := by
  rw [truncate]
  split_ifs with sign
  · exact_mod_cast (Int.floor_le x).trans le
  · exact Int.ceil_le.mpr le

theorem le_truncate (le : bound ≤ x) : bound ≤ truncate x := by
  rw [truncate]
  split_ifs with sign
  · exact Int.le_floor.mpr le
  · exact_mod_cast le.trans (Int.le_ceil x)

/-! ## Bits -/

@[simp]
theorem bits_toInt (x : BitVec 32) : bits x.toInt = x := BitVec.ofInt_toInt

@[simp]
theorem bits_bitOr (x y : ℤ) : bits (bitOr x y) = bits x ||| bits y := bits_toInt _

@[simp]
theorem bits_shiftLeft (x : ℤ) (count : ℕ) : bits (shiftLeft x count) = bits x <<< count :=
  bits_toInt _

theorem bitOr_comm (x y : ℤ) : bitOr x y = bitOr y x := by rw [bitOr, bitOr, BitVec.or_comm]

theorem bitOr_assoc (x y z : ℤ) : bitOr (bitOr x y) z = bitOr x (bitOr y z) := by
  rw [bitOr, bits_bitOr, bitOr, bits_bitOr, BitVec.or_assoc]

instance : Std.Commutative bitOr := ⟨bitOr_comm⟩

instance : Std.Associative bitOr := ⟨bitOr_assoc⟩

theorem toNat_bits (x : ℤ) : ((bits x).toNat : ℤ) = x % 2 ^ 32 := by
  rw [bits, BitVec.toNat_ofInt, Int.toNat_of_nonneg (Int.emod_nonneg x (by decide))]
  rfl

variable {n : ℕ}

theorem toNat_bits_natCast (small : n < 2 ^ 32) : (bits n).toNat = n := by
  have cut := toNat_bits n
  omega

variable {k : ℕ}

/-- Where the lower part of one operand is zero and the other one has nothing but a lower part, they
are added. -/
theorem toNat_or_of_dvd {x y : BitVec 32} (dvd : 2 ^ k ∣ x.toNat) (lt : y.toNat < 2 ^ k) :
    (x ||| y).toNat = x.toNat + y.toNat := by
  obtain ⟨high, eq⟩ := dvd
  rw [BitVec.toNat_or, eq]
  exact (Nat.two_pow_add_eq_or_of_lt lt high).symm

theorem toNat_shiftLeft_of_lt {x : BitVec 32} (lt : x.toNat * 2 ^ k < 2 ^ 32) :
    (x <<< k).toNat = x.toNat * 2 ^ k := by
  rw [BitVec.toNat_shiftLeft, Nat.shiftLeft_eq, Nat.mod_eq_of_lt lt]

theorem shiftRight_eq (x : ℤ) (count : ℕ) : shiftRight x count = x % 2 ^ 32 / 2 ^ count := by
  rw [shiftRight, BitVec.toNat_ushiftRight, Nat.shiftRight_eq_div_pow, ← toNat_bits]
  push_cast
  rfl

theorem toInt_eq (x : BitVec 32) :
    x.toInt = if 2 ^ 31 ≤ x.toNat then (x.toNat : ℤ) - (2 ^ 32 : ℤ) else (x.toNat : ℤ) := by
  rw [BitVec.toInt_eq_toNat_cond]
  push_cast
  split_ifs <;> omega

theorem toInt32_emod (x : ℚ) : toInt32 x % 256 = truncate x % 256 := by
  have cut := toNat_bits (truncate x)
  rw [toInt32, toInt_eq]
  split_ifs <;> omega

theorem toUint32_emod (x : ℚ) : (toUint32 x : ℤ) % 256 = truncate x % 256 := by
  have cut := toNat_bits (truncate x)
  rw [toUint32]
  omega

theorem toInt_bits {x : ℤ} (low : -2 ^ 31 ≤ x) (high : x < 2 ^ 31) : (bits x).toInt = x := by
  have cut := toNat_bits x
  rw [toInt_eq]
  split_ifs <;> omega

theorem toInt32_eq_truncate (low : -2 ^ 31 ≤ truncate x) (high : truncate x < 2 ^ 31) :
    toInt32 x = truncate x := toInt_bits low high

theorem toInt32_intCast {x : ℤ} (low : -2 ^ 31 ≤ x) (high : x < 2 ^ 31) : toInt32 x = x := by
  rw [toInt32, truncate_intCast, toInt_bits low high]

theorem toInt32_natCast (small : n < 2 ^ 31) : toInt32 n = n := by
  have kept : toInt32 ((n : ℤ) : ℚ) = n := toInt32_intCast (by omega) (by omega)
  exact_mod_cast kept

end IoJs.Library.Int32
