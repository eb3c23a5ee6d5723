import IoJs.Buffer.Numbers
import IoJs.Buffer.Pool
import IoJs.Buffer.Utf8Writer
import IoJs.Library.Blocks

/-!
# Buffers and what their functions are called with

A Buffer has some memory behind a pointer. Its functions take numbers of any kind, and strings,
which become bytes in UTF-8.
-/

namespace IoJs.Buffer

open IoJs.Library

/-- A number; a finite one is not rounded here. -/
inductive Number where
  | finite (value : ℚ)
  | infinite (negative : Bool)
  | nan

namespace Number

/-- The integer part; a number that is not finite has none, and counts as zero. -/
def integer : Number → ℤ
  | .finite value => Int32.truncate value
  | _ => 0

/-- `x >> 0` -/
def toInt32 : Number → ℤ
  | .finite value => Int32.toInt32 value
  | _ => 0

/-- `x >>> 0` -/
def toUint32 : Number → ℕ
  | .finite value => Int32.toUint32 value
  | _ => 0

theorem ofNat_toUint32 (x : Number) : UInt8.ofNat x.toUint32 = UInt8.ofInt x.integer := by
  have low : (x.toUint32 : ℤ) % 256 = x.integer % 256 := by
    cases x with
    | finite value => exact Int32.toUint32_emod value
    | infinite => rfl
    | nan => rfl
  rw [← UInt8.toNat_inj, UInt8.ofInt, UInt8.toNat_ofNat', UInt8.toNat_ofNat']
  omega

end Number

/-- A Buffer: the memory behind its pointer, and how much of it belongs to the Buffer -/
structure Data where
  memory : ℕ → UInt8
  length : ℕ
  length_le : length ≤ Pool.kMaxLength

/-- The contents of a Buffer -/
def Data.bytes (buffer : Data) : List UInt8 := Blocks.load buffer.memory 0 buffer.length

/-- `Utf8Value`, which has room for three bytes for each code unit, and a NUL -/
def utf8Value (s : Str) : List UInt8 := writeUtf8 s.storage.maxSize s.units (3 * s.units.length + 1)

@[simp]
theorem utf8Value_eq (s : Str) : utf8Value s = utf8Write s.units := by
  rw [utf8Value, writeUtf8, if_pos (by omega)]

@[simp]
theorem Data.length_bytes (buffer : Data) : buffer.bytes.length = buffer.length :=
  Blocks.length_load _ _ _

theorem Data.length_lt (buffer : Data) : buffer.length < 2 ^ 31 :=
  Nat.lt_of_le_of_lt buffer.length_le (by decide)

end IoJs.Buffer
