import Mathlib.Data.UInt

/-!
# Words of bytes

A word is stored as bytes, the lowest one first, or last. An operation on the bits of a word is one
on each of its bytes (`toBytes_and`), whatever their order.
-/

namespace IoJs.Library.Endian

open List

/-- The word of some bytes, the lowest one first -/
def ofBytes : List UInt8 → ℕ
  | [] => 0
  | byte :: bytes => byte.toNat + 256 * ofBytes bytes

/-- The bytes of a word, the lowest one first -/
def toBytes : ℕ → ℕ → List UInt8
  | 0, _ => []
  | n + 1, word => UInt8.ofNat word :: toBytes n (word / 256)

/-- The word of some bytes in memory -/
def load (bigEndian : Bool) (bytes : List UInt8) : ℕ :=
  ofBytes (if bigEndian then bytes.reverse else bytes)

/-- The bytes of a word in memory -/
def store (bigEndian : Bool) (n word : ℕ) : List UInt8 :=
  if bigEndian then (toBytes n word).reverse else toBytes n word

/-- A word with the same byte everywhere -/
def repeated (n : ℕ) (byte : UInt8) : ℕ := ofBytes (List.replicate n byte)

theorem ofBytes_eq_zero_iff (bytes : List UInt8) : ofBytes bytes = 0 ↔
    ∀ byte ∈ bytes, byte = 0 := by
  induction bytes with
  | nil => simp [ofBytes]
  | cons byte bytes ih =>
    rw [ofBytes, forall_mem_cons, ← ih, ← UInt8.toNat_inj, UInt8.toNat_zero]
    omega

/-! ## Bits -/

section Bits

variable (byte : UInt8) (bytes : List UInt8)

theorem and_add_mul (low mask : UInt8) (x y : ℕ) :
    (low.toNat + 256 * x) &&& (mask.toNat + 256 * y) = (low &&& mask).toNat + 256 * (x &&& y) := by
  have low_lt := low.toNat_lt
  have mask_lt := mask.toNat_lt
  have here : ((low.toNat + 256 * x) &&& (mask.toNat + 256 * y)) % 2 ^ 8 = _ := Nat.and_mod_two_pow
  have above : ((low.toNat + 256 * x) &&& (mask.toNat + 256 * y)) / 2 ^ 8 = _ := Nat.and_div_two_pow
  rw [show (low.toNat + 256 * x) % 2 ^ 8 = low.toNat by omega,
    show (mask.toNat + 256 * y) % 2 ^ 8 = mask.toNat by omega, ← UInt8.toNat_and] at here
  rw [show (low.toNat + 256 * x) / 2 ^ 8 = x by omega,
    show (mask.toNat + 256 * y) / 2 ^ 8 = y by omega] at above
  omega

theorem ofBytes_and_repeated :
    ofBytes bytes &&& repeated bytes.length byte = ofBytes (bytes.map (· &&& byte)) := by
  induction bytes with
  | nil => exact Nat.zero_and _
  | cons first bytes ih =>
    rw [map_cons, ofBytes, ofBytes, ← ih, ← and_add_mul, repeated, length_cons,
      replicate_succ, ofBytes, ← repeated]

theorem toBytes_ofBytes : toBytes bytes.length (ofBytes bytes) = bytes := by
  induction bytes with
  | nil => rfl
  | cons first bytes ih =>
    have bound := first.toNat_lt
    have head : UInt8.ofNat (first.toNat + 256 * ofBytes bytes) = first := by
      rw [← UInt8.toNat_inj, UInt8.toNat_ofNat']
      omega
    have tail : (first.toNat + 256 * ofBytes bytes) / 256 = ofBytes bytes := by omega
    rw [length_cons, ofBytes, toBytes, head, tail, ih]

theorem store_and (bigEndian : Bool) :
    store bigEndian bytes.length (load bigEndian bytes &&& repeated bytes.length byte) =
      bytes.map (· &&& byte) := by
  cases bigEndian with
  | false =>
    have masked := toBytes_ofBytes (bytes.map (· &&& byte))
    rw [← ofBytes_and_repeated, length_map] at masked
    exact masked
  | true =>
    have masked := toBytes_ofBytes (bytes.reverse.map (· &&& byte))
    rw [← ofBytes_and_repeated, length_map, length_reverse] at masked
    exact (congrArg List.reverse masked).trans (by rw [← map_reverse, reverse_reverse])

theorem load_and_ne_zero (bigEndian : Bool) :
    load bigEndian bytes &&& repeated bytes.length byte ≠ 0 ↔ ∃ b ∈ bytes, b &&& byte ≠ 0 := by
  cases bigEndian with
  | false =>
    have bits := ofBytes_eq_zero_iff (bytes.map (· &&& byte))
    rw [← ofBytes_and_repeated, List.forall_mem_map] at bits
    rw [load, if_neg (by decide), Ne, bits]
    simp only [not_forall, exists_prop]
  | true =>
    have bits := ofBytes_eq_zero_iff (bytes.reverse.map (· &&& byte))
    rw [← ofBytes_and_repeated, List.forall_mem_map, length_reverse] at bits
    rw [load, if_pos rfl, Ne, bits]
    simp only [not_forall, exists_prop, mem_reverse]

end Bits

end IoJs.Library.Endian
