import Mathlib.Data.UInt

/-!
# Chunks: what is written to and read from a stream

The values that the stream classes tell apart: Buffers, strings, `null`,
`undefined` and everything else. Strings are sequences of UTF-16 code units.
Here is also the conversion that both constructors apply to `highWaterMark`.
-/

namespace IoJs.Stream

/-- A JavaScript string, as its UTF-16 code units. -/
abbrev JSString := List UInt16

/-- `~~n`: the conversion to a signed 32-bit integer. -/
def toInt32 (n : Int) : Int := Int.bmod n (2 ^ 32)

/-- A value passed as a chunk; `object` is any value that is none of the others. -/
inductive Chunk (Obj : Type) where
  | buffer (bytes : List UInt8)
  | string (units : JSString)
  | object (value : Obj)
  | null
  | undefined
  deriving DecidableEq

namespace Chunk

variable {Obj : Type}

/-- `chunk instanceof Buffer` -/
def isBuffer : Chunk Obj → Bool
  | .buffer _ => true
  | _ => false

/-- `chunk === null || chunk === undefined` -/
def isNullish : Chunk Obj → Bool
  | .null => true
  | .undefined => true
  | _ => false

/-- `chunk === null` -/
def isNull : Chunk Obj → Bool
  | .null => true
  | _ => false

/-- `chunk.length`; `none` where there is no such property to read. -/
def length? : Chunk Obj → Option Nat
  | .buffer bytes => some bytes.length
  | .string units => some units.length
  | _ => none

end Chunk

end IoJs.Stream
