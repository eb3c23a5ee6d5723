import Mathlib.Data.UInt

/-!
# Memory

Bytes are read and written behind a pointer.
-/

namespace IoJs.Crypto

/-- The memory that a pointer points to. -/
abbrev Memory := Nat → UInt8

/-- The bytes from an offset on. -/
def Memory.bytes (data : Memory) (offset size : Nat) : List UInt8 :=
  (List.range size).map fun i => data (offset + i)

/-- `(data[i] << 8) + data[i + 1]` -/
def Memory.word (data : Memory) (i : Nat) : Nat := (data i).toNat * 256 + (data (i + 1)).toNat

namespace Memory

variable {data : Memory} {offset : Nat}

section

variable (data : Memory)

@[simp]
theorem length_bytes (offset size : Nat) :
    (data.bytes offset size).length = size := by simp [Memory.bytes]

@[simp]
theorem bytes_zero (offset : Nat) : data.bytes offset 0 = [] := rfl

theorem bytes_add (offset m n : Nat) :
    data.bytes offset (m + n) = data.bytes offset m ++ data.bytes (offset + m) n := by
  simp [Memory.bytes, List.range_add, Function.comp_def, Nat.add_assoc]

theorem bytes_one (offset : Nat) : data.bytes offset 1 = [data offset] := rfl

end

theorem bytes_take {m n : Nat} (le : m ≤ n) :
    data.bytes offset m = (data.bytes offset n).take m := by
  obtain ⟨k, rfl⟩ := Nat.exists_eq_add_of_le le
  rw [bytes_add, List.take_left' (length_bytes data offset m)]

end Memory

end IoJs.Crypto
