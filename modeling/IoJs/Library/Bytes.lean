import Mathlib.Data.UInt

/-!
# Bytes

Statements about all bytes below a bound can be decided.
-/

namespace IoJs.Library

theorem forall_byte_lt (bound : Nat) {P : UInt8 → Prop} (holds : ∀ n < bound, P (UInt8.ofNat n))
    (byte : UInt8) (small : byte.toNat < bound) : P byte := by
  have here := holds byte.toNat small
  rwa [UInt8.ofNat_toNat] at here

theorem toNat_and_lt (byte mask : UInt8) {width : Nat} (small : mask.toNat < 2 ^ width) :
    (byte &&& mask).toNat < 2 ^ width := by
  exact Nat.and_lt_two_pow _ small

end IoJs.Library
