import IoJs.Library.Int32

/-!
# Numbers in a Buffer

The functions of `buffer.js` that read and write integers: those of a fixed width, and the generic
ones, for a width of up to six bytes. They are called without `noAssert`.

A number is an integer, and a quotient of two is rational. Neither is rounded: 48 bits are exact,
and so are their quotients by powers of two.
-/

namespace IoJs.Buffer

open IoJs.Library.Int32

inductive Thrown where
  | typeError (message : String)
  | rangeError (message : String)
  deriving DecidableEq

/-- A width for the generic functions -/
structure ByteLength where
  bytes : ℕ
  pos : 0 < bytes
  le : bytes ≤ 6

/-- `this[i]`, of an index in range -/
def element (buffer : List UInt8) (i : ℕ) : ℕ := (buffer.getD i 0).toNat

/-- `this[i] = x` -/
def store (buffer : List UInt8) (i : ℕ) (x : ℤ) : List UInt8 := buffer.set i (UInt8.ofInt x)

/-- Where the lowest bytes come first, the index of byte `i` -/
def upward (offset i : ℕ) : ℕ := offset + i

/-- Where the highest bytes come first -/
def downward (offset byteLength i : ℕ) : ℕ := offset + (byteLength - 1 - i)

/-! ## Readers -/

def checkOffset (offset ext length : ℕ) : Except Thrown Unit :=
  if offset + ext > length then .error (.rangeError "index out of range") else .ok ()

/-- `while (++i < byteLength && (mul *= 0x100)) val += this[offset + i] * mul`, with the rounds that
are left: `mul` and `val` after it -/
def readLoop (buffer : List UInt8) (index : ℕ → ℕ) : ℕ → ℕ → ℕ → ℕ → ℕ × ℕ
  | 0, _, mul, val => (mul, val)
  | rounds + 1, i, mul, val =>
    let i := i + 1
    let mul := mul * 0x100
    readLoop buffer index rounds i mul (val + element buffer (index i) * mul)

/-- The number without a sign that the loop gives -/
def readUInt (buffer : List UInt8) (index : ℕ → ℕ) (byteLength : ℕ) : ℤ :=
  (readLoop buffer index (byteLength - 1) 0 1 (element buffer (index 0))).2

/-- The number with a sign: `mul *= 0x80; if (val >= mul) val -= Math.pow(2, 8 * byteLength)` -/
def readInt (buffer : List UInt8) (index : ℕ → ℕ) (byteLength : ℕ) : ℤ :=
  let (mul, val) := readLoop buffer index (byteLength - 1) 0 1 (element buffer (index 0))
  if val ≥ mul * 0x80 then (val : ℤ) - 2 ^ (8 * byteLength) else val

section Readers

variable (buffer : List UInt8) (offset : ℚ)

def readUIntLE (byteLength : ByteLength) : Except Thrown ℤ := do
  let offset := toUint32 offset
  checkOffset offset byteLength.bytes buffer.length
  return readUInt buffer (upward offset) byteLength.bytes

def readUIntBE (byteLength : ByteLength) : Except Thrown ℤ := do
  let offset := toUint32 offset
  checkOffset offset byteLength.bytes buffer.length
  return readUInt buffer (downward offset byteLength.bytes) byteLength.bytes

def readUInt8 : Except Thrown ℤ := do
  let offset := toUint32 offset
  checkOffset offset 1 buffer.length
  return element buffer offset

def readUInt16LE : Except Thrown ℤ := do
  let offset := toUint32 offset
  checkOffset offset 2 buffer.length
  return bitOr (element buffer offset) (shiftLeft (element buffer (offset + 1)) 8)

def readUInt16BE : Except Thrown ℤ := do
  let offset := toUint32 offset
  checkOffset offset 2 buffer.length
  return bitOr (shiftLeft (element buffer offset) 8) (element buffer (offset + 1))

def readUInt32LE : Except Thrown ℤ := do
  let offset := toUint32 offset
  checkOffset offset 4 buffer.length
  return bitOr (bitOr (element buffer offset) (shiftLeft (element buffer (offset + 1)) 8))
      (shiftLeft (element buffer (offset + 2)) 16) +
    element buffer (offset + 3) * 0x1000000

def readUInt32BE : Except Thrown ℤ := do
  let offset := toUint32 offset
  checkOffset offset 4 buffer.length
  return element buffer offset * 0x1000000 +
    bitOr (bitOr (shiftLeft (element buffer (offset + 1)) 16)
      (shiftLeft (element buffer (offset + 2)) 8)) (element buffer (offset + 3))

def readIntLE (byteLength : ByteLength) : Except Thrown ℤ := do
  let offset := toUint32 offset
  checkOffset offset byteLength.bytes buffer.length
  return readInt buffer (upward offset) byteLength.bytes

def readIntBE (byteLength : ByteLength) : Except Thrown ℤ := do
  let offset := toUint32 offset
  checkOffset offset byteLength.bytes buffer.length
  return readInt buffer (downward offset byteLength.bytes) byteLength.bytes

def readInt8 : Except Thrown ℤ := do
  let offset := toUint32 offset
  checkOffset offset 1 buffer.length
  let val : ℤ := element buffer offset
  return if bitAnd val 0x80 = 0 then val else (0xff - val + 1) * -1

def readInt16LE : Except Thrown ℤ := do
  let offset := toUint32 offset
  checkOffset offset 2 buffer.length
  let val := bitOr (element buffer offset) (shiftLeft (element buffer (offset + 1)) 8)
  return if bitAnd val 0x8000 ≠ 0 then bitOr val 0xFFFF0000 else val

def readInt16BE : Except Thrown ℤ := do
  let offset := toUint32 offset
  checkOffset offset 2 buffer.length
  let val := bitOr (element buffer (offset + 1)) (shiftLeft (element buffer offset) 8)
  return if bitAnd val 0x8000 ≠ 0 then bitOr val 0xFFFF0000 else val

def readInt32LE : Except Thrown ℤ := do
  let offset := toUint32 offset
  checkOffset offset 4 buffer.length
  return bitOr (bitOr (bitOr (element buffer offset) (shiftLeft (element buffer (offset + 1)) 8))
    (shiftLeft (element buffer (offset + 2)) 16)) (shiftLeft (element buffer (offset + 3)) 24)

def readInt32BE : Except Thrown ℤ := do
  let offset := toUint32 offset
  checkOffset offset 4 buffer.length
  return bitOr (bitOr (bitOr (shiftLeft (element buffer offset) 24)
    (shiftLeft (element buffer (offset + 1)) 16)) (shiftLeft (element buffer (offset + 2)) 8))
    (element buffer (offset + 3))

end Readers

/-! ## Writers -/

/-- What a writer returns, and the contents afterwards -/
abbrev Written := Except Thrown ℤ × List UInt8

/-- `checkInt`, of a Buffer -/
def checkInt (buffer : List UInt8) (value : ℤ) (offset ext : ℕ) (max min : ℤ) :
    Except Thrown Unit :=
  if value > max ∨ value < min then .error (.typeError "value is out of bounds")
  else if offset + ext > buffer.length then .error (.rangeError "index out of range")
  else .ok ()

/-- What comes after a check is not done when it throws. -/
def afterCheck (check : Except Thrown Unit) (buffer : List UInt8) (returns : ℕ)
    (written : List UInt8) : Written :=
  match check with
  | .error thrown => (.error thrown, buffer)
  | .ok () => (.ok returns, written)

/-- `while (++i < byteLength && (mul *= 0x100)) this[offset + i] = …`, with the rounds that are left
-/
def writeLoop (index : ℕ → ℕ) (digit : ℕ → ℤ) : ℕ → ℕ → ℕ → List UInt8 → List UInt8
  | 0, _, _, buffer => buffer
  | rounds + 1, i, mul, buffer =>
    let i := i + 1
    let mul := mul * 0x100
    writeLoop index digit rounds i mul (store buffer (index i) (digit mul))

/-- `this[offset + i] = (value / mul) >>> 0` -/
def unsignedDigit (value : ℤ) (mul : ℕ) : ℤ := toUint32 ((value : ℚ) / mul)

/-- `this[offset + i] = ((value / mul) >> 0) - sub` -/
def signedDigit (value : ℤ) (mul : ℕ) : ℤ :=
  let sub := if value < 0 then 1 else 0
  toInt32 ((value : ℚ) / mul) - sub

/-- The first byte, and the loop -/
def writeDigits (buffer : List UInt8) (value : ℤ) (index : ℕ → ℕ) (digit : ℕ → ℤ)
    (byteLength : ℕ) : List UInt8 :=
  writeLoop index digit (byteLength - 1) 0 1 (store buffer (index 0) value)

section Writers

variable (buffer : List UInt8) (value : ℤ) (offset : ℚ)

def writeUIntLE (byteLength : ByteLength) : Written :=
  let offset := toUint32 offset
  let bytes := byteLength.bytes
  afterCheck (checkInt buffer value offset bytes (2 ^ (8 * bytes)) 0) buffer (offset + bytes)
    (writeDigits buffer value (upward offset) (unsignedDigit value) bytes)

def writeUIntBE (byteLength : ByteLength) : Written :=
  let offset := toUint32 offset
  let bytes := byteLength.bytes
  afterCheck (checkInt buffer value offset bytes (2 ^ (8 * bytes)) 0) buffer (offset + bytes)
    (writeDigits buffer value (downward offset bytes) (unsignedDigit value) bytes)

def writeIntLE (byteLength : ByteLength) : Written :=
  let offset := toUint32 offset
  let bytes := byteLength.bytes
  afterCheck (checkInt buffer value offset bytes (2 ^ (8 * bytes - 1) - 1) (-2 ^ (8 * bytes - 1)))
    buffer (offset + bytes)
    (writeDigits buffer value (upward offset) (signedDigit value) bytes)

def writeIntBE (byteLength : ByteLength) : Written :=
  let offset := toUint32 offset
  let bytes := byteLength.bytes
  afterCheck (checkInt buffer value offset bytes (2 ^ (8 * bytes - 1) - 1) (-2 ^ (8 * bytes - 1)))
    buffer (offset + bytes)
    (writeDigits buffer value (downward offset bytes) (signedDigit value) bytes)

def writeInt8 : Written :=
  let offset := toUint32 offset
  afterCheck (checkInt buffer value offset 1 0x7f (-0x80)) buffer (offset + 1)
    (store buffer offset value)

def writeInt16LE : Written :=
  let offset := toUint32 offset
  afterCheck (checkInt buffer value offset 2 0x7fff (-0x8000)) buffer (offset + 2)
    (store (store buffer offset value) (offset + 1) (shiftRight value 8))

def writeInt16BE : Written :=
  let offset := toUint32 offset
  afterCheck (checkInt buffer value offset 2 0x7fff (-0x8000)) buffer (offset + 2)
    (store (store buffer offset (shiftRight value 8)) (offset + 1) value)

def writeInt32LE : Written :=
  let offset := toUint32 offset
  afterCheck (checkInt buffer value offset 4 0x7fffffff (-0x80000000)) buffer (offset + 4)
    (store (store (store (store buffer offset value) (offset + 1) (shiftRight value 8)) (offset + 2)
      (shiftRight value 16)) (offset + 3) (shiftRight value 24))

def writeInt32BE : Written :=
  let offset := toUint32 offset
  afterCheck (checkInt buffer value offset 4 0x7fffffff (-0x80000000)) buffer (offset + 4)
    (store (store (store (store buffer offset (shiftRight value 24)) (offset + 1)
      (shiftRight value 16)) (offset + 2) (shiftRight value 8)) (offset + 3) value)

end Writers

end IoJs.Buffer
