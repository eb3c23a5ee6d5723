import IoJs.Crypto.Memory
import IoJs.Library.Chain

/-!
# `NodeBIO`

A queue of bytes in a ring of buffers. A pointer to a `Buffer` is its address in a heap; it is
`none` where the source has `nullptr`. An operation has no result if a pointer that it follows
is null or dangling, if a `CHECK` fails, or if a loop is still running when its fuel is spent.
-/

namespace IoJs.Crypto

open Library

structure Buffer where
  readPos : Nat
  writePos : Nat
  len : Nat
  next : Nat
  data : Memory

/-- `NodeBIO`, with its buffers and the address that the next one gets -/
structure NodeBio where
  initial : Nat
  length : Nat
  readHead : Option Nat
  writeHead : Option Nat
  heap : Heap Buffer
  fresh : Nat

/-- `memcpy` to an offset -/
def Memory.copy (data : Memory) (offset : Nat) (bytes : List UInt8) : Memory := fun i =>
  if offset ≤ i ∧ i < offset + bytes.length then bytes.getD (i - offset) 0 else data i

namespace NodeBio

def kInitialBufferLength : Nat := 1024
def kThroughputBufferLength : Nat := 16384

/-- The constructor -/
def new : NodeBio :=
  { initial := kInitialBufferLength
    length := 0
    readHead := none
    writeHead := none
    heap := fun _ => none
    fresh := 0 }

/-- A buffer is changed. -/
def put (bio : NodeBio) (address : Nat) (b : Buffer) : NodeBio :=
  { bio with heap := Function.update bio.heap address (some b) }

/-- The loop of `TryMoveReadHead` -/
def moveReadHead : Nat → NodeBio → Option NodeBio
  | 0, _ => none
  | fuel + 1, bio => do
      let r ← bio.readHead
      let b ← bio.heap r
      if b.readPos ≠ 0 ∧ b.readPos = b.writePos then
        -- reset positions
        let bio := bio.put r { b with readPos := 0, writePos := 0 }
        if some r ≠ bio.writeHead then moveReadHead fuel { bio with readHead := some b.next }
        else moveReadHead fuel bio
      else some bio

def tryMoveReadHead (bio : NodeBio) : Option NodeBio := moveReadHead (bio.fresh + 2) bio

/-- The buffer that `new Buffer` gives, before the first buffer -/
def allocateFirst (bio : NodeBio) (hint : Nat) : NodeBio :=
  let address := bio.fresh
  let b : Buffer :=
    { readPos := 0, writePos := 0, len := max bio.initial hint, next := address,
      data := fun _ => 0 }
  { bio.put address b with
    fresh := address + 1, readHead := some address, writeHead := some address }

/-- The same, behind the write head -/
def allocateNext (bio : NodeBio) (w : Nat) (b : Buffer) (hint : Nat) : NodeBio :=
  let address := bio.fresh
  let b' : Buffer :=
    { readPos := 0, writePos := 0, len := max kThroughputBufferLength hint, next := b.next,
      data := fun _ => 0 }
  { (bio.put address b').put w { b with next := address } with fresh := address + 1 }

def tryAllocateForWrite (bio : NodeBio) (hint : Nat) : Option NodeBio :=
  match bio.writeHead with
  | none => some (bio.allocateFirst hint)
  | some w => do
      let b ← bio.heap w
      if b.writePos = b.len then
        if some b.next = bio.readHead then some (bio.allocateNext w b hint)
        else do
          let n ← bio.heap b.next
          if n.writePos ≠ 0 then some (bio.allocateNext w b hint) else some bio
      else some bio

/-! ## Reading -/

/-- The loop of `Read`, with what it has copied -/
def readLoop (expected : Nat) :
    Nat → NodeBio → Nat → Nat → List UInt8 → Option (NodeBio × Nat × List UInt8)
  | 0, _, _, _, _ => none
  | fuel + 1, bio, bytesRead, left, copied =>
    if bytesRead < expected then do
      let r ← bio.readHead
      let b ← bio.heap r
      if b.readPos ≤ b.writePos then
        let avail := min (b.writePos - b.readPos) left
        let copied := copied ++ b.data.bytes b.readPos avail
        let bio := bio.put r { b with readPos := b.readPos + avail }
        let bio ← bio.tryMoveReadHead
        readLoop expected fuel bio (bytesRead + avail) (left - avail) copied
      else none
    else some (bio, bytesRead, copied)

/-- The loop of `FreeEmpty`, from a buffer to the read head -/
def freeLoop : Nat → NodeBio → Nat → Option (NodeBio × Nat)
  | 0, _, _ => none
  | fuel + 1, bio, cur =>
    if some cur ≠ bio.readHead then
      if some cur ≠ bio.writeHead then do
        let b ← bio.heap cur
        if b.writePos = b.readPos then
          freeLoop fuel { bio with heap := Function.update bio.heap cur none } b.next
        else none
      else none
    else some (bio, cur)

def freeEmpty (bio : NodeBio) : Option NodeBio :=
  match bio.writeHead with
  | none => some bio
  | some w => do
      let b ← bio.heap w
      let child := b.next
      if child = w ∨ some child = bio.readHead then some bio
      else do
        let c ← bio.heap child
        let cur := c.next
        if cur = w ∨ some cur = bio.readHead then some bio
        else do
          let (bio, cur) ← freeLoop (bio.fresh + 1) bio cur
          let c ← bio.heap child
          some (bio.put child { c with next := cur })

/-- `Read`; `out` tells whether there is a place to copy to. -/
def read (bio : NodeBio) (out : Bool) (size : Nat) : Option (NodeBio × Nat × List UInt8) := do
  let expected := if bio.length > size then size else bio.length
  let (bio, bytesRead, copied) ← readLoop expected (expected + 1) bio 0 size []
  if expected = bytesRead then do
    let bio ← freeEmpty { bio with length := bio.length - bytesRead }
    some (bio, bytesRead, if out then copied else [])
  else none

def peek (bio : NodeBio) : Option (List UInt8) := do
  let r ← bio.readHead
  let b ← bio.heap r
  some (b.data.bytes b.readPos (b.writePos - b.readPos))

/-! ## Writing -/

/-- The write head goes to the next buffer. -/
def nextWriteHead (bio : NodeBio) : Option NodeBio := do
  let w ← bio.writeHead
  let b ← bio.heap w
  -- since we're moved to the next buffer, read head may be moved as well
  tryMoveReadHead { bio with writeHead := some b.next }

/-- The loop of `Write`, with the bytes that are left -/
def writeLoop : Nat → NodeBio → List UInt8 → Option NodeBio
  | 0, _, _ => none
  | fuel + 1, bio, data =>
    if data = [] then some bio
    else do
      let w ← bio.writeHead
      let b ← bio.heap w
      if b.writePos ≤ b.len then
        let toWrite := min data.length (b.len - b.writePos)
        let b' : Buffer :=
          { b with
            data := b.data.copy b.writePos (data.take toWrite)
            writePos := b.writePos + toWrite }
        let bio := { bio.put w b' with length := bio.length + toWrite }
        let left := data.drop toWrite
        if b'.writePos ≤ b'.len then
          if left ≠ [] then
            if b'.writePos = b'.len then do
              let bio ← bio.tryAllocateForWrite left.length
              let bio ← bio.nextWriteHead
              writeLoop fuel bio left
            else none
          else writeLoop fuel bio left
        else none
      else none

def write (bio : NodeBio) (data : List UInt8) : Option NodeBio := do
  let bio ← bio.tryAllocateForWrite data.length
  writeLoop (data.length + 2) bio data

/-- A part of a buffer -/
structure Area where
  buffer : Nat
  offset : Nat
  size : Nat

def peekWritable (bio : NodeBio) (size : Nat) : Option (NodeBio × Area) := do
  let bio ← bio.tryAllocateForWrite size
  let w ← bio.writeHead
  let b ← bio.heap w
  let available := b.len - b.writePos
  let size := if size ≠ 0 ∧ available > size then size else available
  some (bio, { buffer := w, offset := b.writePos, size })

/-- What is written to an area -/
def fill (bio : NodeBio) (area : Area) (data : List UInt8) : Option NodeBio := do
  let b ← bio.heap area.buffer
  some (bio.put area.buffer { b with data := b.data.copy area.offset data })

def commit (bio : NodeBio) (size : Nat) : Option NodeBio := do
  let w ← bio.writeHead
  let b ← bio.heap w
  let b' := { b with writePos := b.writePos + size }
  let bio := { bio.put w b' with length := bio.length + size }
  if b'.writePos ≤ b'.len then do
    -- allocate new buffer if write head is full, and there're no other place to go
    let bio ← bio.tryAllocateForWrite 0
    let w ← bio.writeHead
    let b ← bio.heap w
    if b.writePos = b.len then bio.nextWriteHead else some bio
  else none

/-! ## `Reset` -/

def resetLoop : Nat → NodeBio → Option NodeBio
  | 0, _ => none
  | fuel + 1, bio => do
      let r ← bio.readHead
      let b ← bio.heap r
      if b.readPos ≠ b.writePos then
        if b.writePos > b.readPos then
          resetLoop fuel
            { bio.put r { b with readPos := 0, writePos := 0 } with
              length := bio.length - (b.writePos - b.readPos)
              readHead := some b.next }
        else none
      else some bio

def reset (bio : NodeBio) : Option NodeBio :=
  match bio.readHead with
  | none => some bio
  | some _ => do
      let bio ← resetLoop (bio.fresh + 1) bio
      let bio := { bio with writeHead := bio.readHead }
      if bio.length = 0 then some bio else none

end NodeBio

end IoJs.Crypto
