import IoJs.Stream.Readable.State

/-!
# The functions of a Readable stream

Each function of `_stream_readable.js` that reads or fills the buffer, as a function on
configurations. As for a Writable, a function that calls user code pushes the frame that
continues it and then the frame of the user code.
-/

namespace IoJs.Stream

/-! ## Slices of chunks -/

namespace Chunk

variable {Obj : Type}

/-- The length of a Buffer or a string. -/
def size (chunk : Chunk Obj) : Nat := chunk.length?.getD 0

/-- `chunk.slice(0, n)` -/
def sliceTo (n : Nat) : Chunk Obj → Chunk Obj
  | .buffer bytes => .buffer (bytes.take n)
  | .string units => .string (units.take n)
  | chunk => chunk

/-- `chunk.slice(n)` -/
def sliceFrom (n : Nat) : Chunk Obj → Chunk Obj
  | .buffer bytes => .buffer (bytes.drop n)
  | .string units => .string (units.drop n)
  | chunk => chunk

/-- The bytes of a Buffer. -/
def bytes : Chunk Obj → List UInt8
  | .buffer bytes => bytes
  | _ => []

/-- The code units of a string. -/
def units : Chunk Obj → JSString
  | .string units => units
  | _ => []

end Chunk

namespace Readable

variable {Obj : Type}

/-- What the stream is built from besides its options: the conversions between bytes and
text, and what a decoder makes of a chunk that is not a Buffer. -/
structure Environment (Obj : Type) where
  newBuffer : JSString → String → List UInt8
  toString : ToString
  writeValue : StringDecoder → Chunk Obj → StringDecoder × JSString

/-! ## `fromList` -/

/-- The bytes put one after the other into a Buffer of `n` bytes. -/
def fill (n : Nat) (bytes : List UInt8) : List UInt8 :=
  bytes.take n ++ List.replicate (n - bytes.length) 0

/-- `Buffer.concat(list, length)` -/
def bufferConcat (list : List (Chunk Obj)) (length : Nat) : Chunk Obj :=
  match list with
  | [] => .buffer []
  | [chunk] => chunk
  | list => .buffer (fill length (list.flatMap Chunk.bytes))

/-- The loop over the list in `fromList`: the slices that make up `n` elements, and what is
left of the list. -/
def pluck (n : Nat) : List (Chunk Obj) → List (Chunk Obj) × List (Chunk Obj)
  | [] => ([], [])
  | buf :: list =>
    if n = 0 then ([], buf :: list)
    else
      let cpy := min n buf.size
      if cpy < buf.size then ([buf.sliceTo cpy], buf.sliceFrom cpy :: list)
      else
        let (slices, left) := pluck (n - cpy) list
        (buf.sliceTo cpy :: slices, left)

/-- `fromList`: what it returns, and what becomes of `state.buffer`. -/
def fromList (n : Int) (state : ReadableState Obj) : Option (Chunk Obj) × List (Chunk Obj) :=
  match state.buffer with
  | [] => (none, [])
  | first :: list =>
    if state.length = 0 then (none, first :: list)
    else if state.objectMode then (some first, list)
    else if n = 0 || state.length ≤ n then
      if state.decoder.isSome then (some (.string ((first :: list).flatMap Chunk.units)), [])
      else (some (bufferConcat (first :: list) state.length.toNat), [])
    else if n < first.size then
      (some (first.sliceTo n.toNat), first.sliceFrom n.toNat :: list)
    else if n = first.size then (some first, list)
    else
      let (slices, left) := pluck n.toNat (first :: list)
      if state.decoder.isSome then (some (.string (slices.flatMap Chunk.units)), left)
      else (some (.buffer (fill n.toNat (slices.flatMap Chunk.bytes))), left)

/-! ## The run time -/

namespace Config

/-- Assign fields of `state`. -/
def set (c : Config Obj) (assign : ReadableState Obj → ReadableState Obj) : Config Obj :=
  { c with state := assign c.state }

/-- Append to the trace. -/
def log (c : Config Obj) (event : Event Obj) : Config Obj := { c with trace := c.trace ++ [event] }

/-- Push a call in progress. -/
def push (c : Config Obj) (frame : Frame Obj) : Config Obj := { c with stack := frame :: c.stack }

/-- `process.nextTick` -/
def nextTick (c : Config Obj) (tick : Tick) : Config Obj := { c with ticks := c.ticks ++ [tick] }

/-- `emit`: the listeners run next. -/
def emit (c : Config Obj) (event : Emission Obj) : Config Obj :=
  (c.log (.emitted event)).push (.user (.listeners event))

section Projections

variable (c : Config Obj)

@[simp] theorem set_state (f : ReadableState Obj → ReadableState Obj) :
    (c.set f).state = f c.state := rfl
@[simp] theorem set_stack (f : ReadableState Obj → ReadableState Obj) :
    (c.set f).stack = c.stack := rfl
@[simp] theorem set_trace (f : ReadableState Obj → ReadableState Obj) :
    (c.set f).trace = c.trace := rfl

@[simp] theorem log_state (e : Event Obj) : (c.log e).state = c.state := rfl
@[simp] theorem log_stack (e : Event Obj) : (c.log e).stack = c.stack := rfl
@[simp] theorem log_trace (e : Event Obj) : (c.log e).trace = c.trace ++ [e] := rfl

@[simp] theorem push_state (f : Frame Obj) : (c.push f).state = c.state := rfl
@[simp] theorem push_stack (f : Frame Obj) : (c.push f).stack = f :: c.stack := rfl
@[simp] theorem push_trace (f : Frame Obj) : (c.push f).trace = c.trace := rfl

@[simp] theorem nextTick_state (t : Tick) : (c.nextTick t).state = c.state := rfl
@[simp] theorem nextTick_stack (t : Tick) : (c.nextTick t).stack = c.stack := rfl
@[simp] theorem nextTick_trace (t : Tick) : (c.nextTick t).trace = c.trace := rfl

@[simp] theorem emit_state (e : Emission Obj) : (c.emit e).state = c.state := rfl
@[simp] theorem emit_stack (e : Emission Obj) :
    (c.emit e).stack = .user (.listeners e) :: c.stack := rfl
@[simp] theorem emit_trace (e : Emission Obj) : (c.emit e).trace = c.trace ++ [.emitted e] := rfl

end Projections

/-- Is user code running, or nothing at all? -/
def userTurn (c : Config Obj) : Bool :=
  match c.stack with
  | [] => true
  | .user _ :: _ => true
  | _ => false

/-- `state.flowing` as a condition. -/
def flows (c : Config Obj) : Bool := c.state.flowing.getD false

/-- An exception goes up to the innermost user code. -/
def throw (c : Config Obj) : Config Obj :=
  let isStream : Frame Obj → Bool
    | .user _ => false
    | _ => true
  { c with stack := c.stack.dropWhile isStream }.log .threw

/-- Call a function that may throw, and go on. -/
def attempt (c : Config Obj) (f : Config Obj → Option (Config Obj))
    (next : Config Obj → Config Obj) : Config Obj :=
  match f c with
  | none => c.throw
  | some d => next d

def returnRead (c : Config Obj) (ret : Option (Chunk Obj)) : Config Obj :=
  { c with result := ret }.log (.result ret)

end Config

/-! ## Reading -/

/-- `emitReadable_` up to the end of the listeners -/
def emitReadableNow (c : Config Obj) : Config Obj := (c.push .emitReadable).emit .readable

def emitReadable (c : Config Obj) : Config Obj :=
  let c := c.set fun s => { s with needReadable := false }
  if c.state.emittedReadable then c
  else
    let c := c.set fun s => { s with emittedReadable := true }
    if c.state.sync then c.nextTick .emitReadable else emitReadableNow c

/-- `endReadable`; `none` where it throws. -/
def endReadable (c : Config Obj) : Option (Config Obj) :=
  if 0 < c.state.length then none
  else if c.state.endEmitted then some c
  else some ((c.set fun s => { s with ended := true }).nextTick .endReadable)

/-- The callback that `endReadable` queues. -/
def endReadableNow (c : Config Obj) : Config Obj :=
  if !c.state.endEmitted && decide (c.state.length = 0) then
    ({ c with readable := false }.set fun s => { s with endEmitted := true }).emit .end_
  else c

def maxHwm : Nat := 0x800000

def roundUpToNextPowerOf2 (n : Nat) : Nat :=
  if maxHwm ≤ n then maxHwm
  else [1, 2, 4, 8, 16].foldl (fun n p => n ||| (n >>> p)) (n - 1) + 1

/-- What `howMuchToRead` returns. -/
def howMuchToRead (n : Option Int) (s : ReadableState Obj) : Int :=
  if s.length = 0 && s.ended then 0
  else if s.objectMode then if n = some 0 then 0 else 1
  else match n with
    | none =>
      match s.flowing.getD false, s.buffer with
      | true, first :: _ => first.size
      | _, _ => s.length
    | some n =>
      if n ≤ 0 then 0
      else if s.length < n then if s.ended then s.length else 0
      else n

/-- What `howMuchToRead` does to the state. -/
def raiseHwm (n : Option Int) (s : ReadableState Obj) : ReadableState Obj :=
  if s.length = 0 && s.ended then s
  else if s.objectMode then s
  else match n with
    | none => s
    | some n =>
      if n ≤ 0 then s
      else
        { s with
          highWaterMark :=
            if s.highWaterMark < n then roundUpToNextPowerOf2 n.toNat else s.highWaterMark
          needReadable := if s.length < n && !s.ended then true else s.needReadable }

/-- `read` gives up `n` elements, or finds nothing, and leaves `buffer`. -/
def remove (c : Config Obj) (n : Int) (buffer : List (Chunk Obj)) : Config Obj :=
  c.set fun s =>
    { s with
      buffer
      length := s.length - n
      needReadable := s.needReadable || (decide (s.length - n = 0) && !s.ended) }

/-- `read(nOrig)` ends the stream if it tried to read past its end. -/
def endIfPast (nOrig : Option Int) (n : Int) (c : Config Obj) : Option (Config Obj) :=
  if decide (nOrig ≠ some n) && c.state.ended && decide (c.state.length = 0) then endReadable c
  else some c

/-- `read` emits what it is going to return. -/
def deliver (chunk : Chunk Obj) (c : Config Obj) : Config Obj :=
  (c.push (.readReturn (some chunk))).emit (.data chunk)

/-- `read(nOrig)` from the call of `fromList` on. -/
def readRest (c : Config Obj) (nOrig : Option Int) (n : Int) : Config Obj :=
  match if 0 < n then fromList n c.state else (none, c.state.buffer) with
  | (none, buffer) =>
    (remove (c.set fun s => { s with needReadable := true }) 0 buffer).attempt
      (endIfPast nOrig 0) (·.returnRead none)
  | (some chunk, buffer) => (remove c n buffer).attempt (endIfPast nOrig n) (deliver chunk)

/-- Does `read` call `_read`, having found that it can take `n`? -/
def doRead (s : ReadableState Obj) (n : Int) : Bool :=
  (s.needReadable || decide (s.length = 0) || decide (s.length - n < s.highWaterMark)) &&
    !(s.ended || s.reading)

/-- `Readable.prototype.read` up to the call of `_read`, or to its end -/
def read (c : Config Obj) (nOrig : Option Int) : Config Obj :=
  let c := if nOrig.all (0 < ·) then c.set fun s => { s with emittedReadable := false } else c
  if decide (nOrig = some 0) && c.state.needReadable &&
      (decide (c.state.highWaterMark ≤ c.state.length) || c.state.ended) then
    if c.state.length = 0 && c.state.ended then c.attempt endReadable (·.returnRead none)
    else emitReadable (c.push (.readReturn none))
  else
    let n := howMuchToRead nOrig c.state
    let c := c.set (raiseHwm nOrig)
    if n = 0 && c.state.ended then
      if c.state.length = 0 then c.attempt endReadable (·.returnRead none)
      else c.returnRead none
    else if doRead c.state n then
      ((c.set fun s =>
        { s with
          reading := true
          sync := true
          needReadable := decide (s.length = 0) || s.needReadable }).push (.read nOrig n)).push
        (.user .implementation)
    else readRest c nOrig n

def readAfter (c : Config Obj) (nOrig : Option Int) (n : Int) : Config Obj :=
  let c := c.set fun s => { s with sync := false }
  if c.state.reading then readRest c nOrig n
  else readRest (c.set (raiseHwm nOrig)) nOrig (howMuchToRead nOrig c.state)

/-- `flow`: `read()` as long as the stream flows. -/
def flow (c : Config Obj) : Config Obj := if c.flows then read (c.push .flow) none else c

/-- `flow` after `read()` -/
def flowAfter (c : Config Obj) : Config Obj := if c.result.isSome then flow c else c

def maybeReadMoreLoop (c : Config Obj) : Config Obj :=
  if !c.state.reading && !c.flows && !c.state.ended &&
      decide (c.state.length < c.state.highWaterMark) then
    read (c.push (.maybeReadMore c.state.length)) (some 0)
  else c.set fun s => { s with readingMore := false }

/-- The loop of `maybeReadMore_` after `read(0)` -/
def maybeReadMoreAfter (c : Config Obj) (len : Int) : Config Obj :=
  if len = c.state.length then c.set fun s => { s with readingMore := false }
  else maybeReadMoreLoop c

def maybeReadMore (c : Config Obj) : Config Obj :=
  if c.state.readingMore then c
  else (c.set fun s => { s with readingMore := true }).nextTick .maybeReadMore

/-! ## Filling -/

def needMoreData (s : ReadableState Obj) : Bool :=
  !s.ended && (s.needReadable || decide (s.length < s.highWaterMark) || decide (s.length = 0))

/-- `readableAddChunk` returns. -/
def addChunkReturn (c : Config Obj) : Config Obj := c.log (.answered (needMoreData c.state))

/-- `decoder.write(chunk)` -/
def decode (env : Environment Obj) (d : StringDecoder) (chunk : Chunk Obj) :
    StringDecoder × JSString :=
  match chunk with
  | .buffer bytes => d.write env.toString bytes
  | chunk => env.writeValue d chunk

/-- The chunk as it is added to the stream, and the decoder afterwards. -/
def decodeChunk (env : Environment Obj) (s : ReadableState Obj) (chunk : Chunk Obj)
    (encoding : String) (addToFront : Bool) : Chunk Obj × Option StringDecoder :=
  match s.decoder with
  | some d =>
    if !addToFront && encoding = "" then
      let (d, text) := decode env d chunk
      (.string text, some d)
    else (chunk, some d)
  | none => (chunk, none)

/-- The event by which a chunk comes in. -/
def Event.inward (addToFront : Bool) (chunk : Chunk Obj) : Event Obj :=
  if addToFront then .unshifted chunk else .pushed chunk

/-- A chunk has come out of the decoder. -/
def admitChunk (c : Config Obj) (decoder : Option StringDecoder) (addToFront : Bool)
    (chunk : Chunk Obj) : Config Obj :=
  (c.set fun s => { s with decoder, reading := if addToFront then s.reading else false }).log
    (.inward addToFront chunk)

/-- Update the buffer info. -/
def storeChunk (c : Config Obj) (addToFront : Bool) (chunk : Chunk Obj) : Config Obj :=
  c.set fun s =>
    { s with
      length := s.length + if s.objectMode then 1 else (chunk.size : Int)
      buffer := if addToFront then chunk :: s.buffer else s.buffer ++ [chunk] }

/-- What `decoder.end()` still gives out. -/
def leftover (env : Environment Obj) (s : ReadableState Obj) : Option (Chunk Obj) :=
  (s.decoder.map (StringDecoder.end_ env.toString)).bind fun text =>
    if text = [] then none else some (.string text)

def onEofChunk (env : Environment Obj) (c : Config Obj) : Config Obj :=
  let c := match leftover env c.state with
    | none => c
    | some chunk => (storeChunk c false chunk).log (.pushed chunk)
  emitReadable ((c.set fun s => { s with ended := true }).log .ended)

/-- `emitReadable`, if it is needed -/
def emitIfNeeded (c : Config Obj) : Config Obj :=
  if c.state.needReadable then emitReadable c else c

/-- The branch of `readableAddChunk` that takes the chunk in. -/
def addData (env : Environment Obj) (c : Config Obj) (chunk : Chunk Obj) (encoding : String)
    (addToFront : Bool) : Config Obj :=
  let (chunk, decoder) := decodeChunk env c.state chunk encoding addToFront
  let c := admitChunk c decoder addToFront chunk
  if c.flows && decide (c.state.length = 0) && !c.state.sync then
    (c.push .addChunkRead).emit (.data chunk)
  else emitIfNeeded ((storeChunk c addToFront chunk).push .addChunkMore)

def chunkInvalid (s : ReadableState Obj) (chunk : Chunk Obj) : Bool :=
  match chunk with
  | .object _ => !s.objectMode
  | _ => false

/-- `state.objectMode || chunk && chunk.length > 0` -/
def holdsData (s : ReadableState Obj) (chunk : Chunk Obj) : Bool :=
  s.objectMode || decide (0 < chunk.size)

def readableAddChunk (env : Environment Obj) (c : Config Obj) (chunk : Chunk Obj)
    (encoding : String) (addToFront : Bool) : Config Obj :=
  if chunkInvalid c.state chunk then (c.push .addChunkReturn).emit (.error .invalidChunk)
  else if chunk.isNull then
    let c := c.set fun s => { s with reading := false }
    if c.state.ended then addChunkReturn c else onEofChunk env (c.push .addChunkReturn)
  else if holdsData c.state chunk then
    if c.state.ended && !addToFront then
      (c.push .addChunkReturn).emit (.error .pushAfterEOF)
    else if c.state.endEmitted && addToFront then
      (c.push .addChunkReturn).emit (.error .unshiftAfterEnd)
    else addData env c chunk encoding addToFront
  else
    addChunkReturn (if addToFront then c else c.set fun s => { s with reading := false })

/-- The encoding that `push` passes on for a string, and the string as a Buffer if its
encoding is not the stream's. -/
def pushedAs (env : Environment Obj) (s : ReadableState Obj) (chunk : Chunk Obj)
    (encoding : String) : Chunk Obj × String :=
  match chunk with
  | .string units =>
    if s.objectMode then (chunk, encoding)
    else
      let encoding := if encoding = "" then s.defaultEncoding else encoding
      if s.encoding = some encoding then (chunk, encoding)
      else (.buffer (env.newBuffer units encoding), "")
  | chunk => (chunk, encoding)

/-- `Readable.prototype.push`; no encoding is the empty one. -/
def push (env : Environment Obj) (c : Config Obj) (chunk : Chunk Obj) (encoding : String) :
    Config Obj :=
  let (chunk, encoding) := pushedAs env c.state chunk encoding
  readableAddChunk env c chunk encoding false

/-- `Readable.prototype.unshift` -/
def unshift (env : Environment Obj) (c : Config Obj) (chunk : Chunk Obj) : Config Obj :=
  readableAddChunk env c chunk "" true

/-- `Readable.prototype.setEncoding` -/
def setEncoding (c : Config Obj) (encoding : String) : Config Obj :=
  c.set fun s => { s with decoder := some (.new encoding), encoding := some encoding }

/-! ## Flowing -/

/-- `Readable.prototype.resume` -/
def resumeStream (c : Config Obj) : Config Obj :=
  if c.flows then c
  else
    let c := c.set fun s => { s with flowing := some true }
    if c.state.resumeScheduled then c
    else (c.set fun s => { s with resumeScheduled := true }).nextTick .resume

/-- `resume_` after the first `read(0)` -/
def resumeEmit (c : Config Obj) : Config Obj :=
  ((c.set fun s => { s with resumeScheduled := false }).push .resumeFlow).emit .resume

def resumeNow (c : Config Obj) : Config Obj :=
  if c.state.reading then resumeEmit c else read (c.push .resumeEmit) (some 0)

/-- `resume_` after `flow` -/
def resumeRead (c : Config Obj) : Config Obj :=
  if c.flows && !c.state.reading then read c (some 0) else c

/-- `Readable.prototype.pause` -/
def pause (c : Config Obj) : Config Obj :=
  if c.state.flowing = some false then c
  else (c.set fun s => { s with flowing := some false }).emit .pause

/-- `Readable.prototype.on('data')` -/
def onData (c : Config Obj) : Config Obj :=
  if c.state.flowing = some false then c else resumeStream c

/-- `Readable.prototype.on('readable')` -/
def onReadable (c : Config Obj) : Config Obj :=
  if !c.readable || c.state.readableListening then c
  else
    let c := c.set fun s =>
      { s with readableListening := true, emittedReadable := false, needReadable := true }
    if !c.state.reading then c.nextTick .readZero
    else if c.state.length ≠ 0 then emitReadable c
    else c

/-! ## The machine -/

/-- Continue the call in progress whose frame was just popped. -/
def resume (c : Config Obj) : Frame Obj → Option (Config Obj)
  | .user _ => none
  | .read nOrig n => some (readAfter c nOrig n)
  | .readReturn ret => some (c.returnRead ret)
  | .flow => some (flowAfter c)
  | .emitReadable => some (flow c)
  | .addChunkRead => some (read (c.push .addChunkMore) (some 0))
  | .addChunkMore => some (addChunkReturn (maybeReadMore c))
  | .addChunkReturn => some (addChunkReturn c)
  | .maybeReadMore len => some (maybeReadMoreAfter c len)
  | .resumeEmit => some (resumeEmit c)
  | .resumeFlow => some (flow (c.push .resumeRead))
  | .resumeRead => some (resumeRead c)

/-- Run a function queued with `process.nextTick`. -/
def runTick (c : Config Obj) : Tick → Config Obj
  | .emitReadable => emitReadableNow c
  | .maybeReadMore => maybeReadMoreLoop c
  | .resume => resumeNow c
  | .endReadable => endReadableNow c
  | .readZero => read c (some 0)

/-- What can happen next. -/
inductive Action (Obj : Type) where
  | push (chunk : Chunk Obj) (encoding : String)
  | unshift (chunk : Chunk Obj)
  | read (n : Option Int)
  | setEncoding (encoding : String)
  | pause
  | resumeStream
  | onData
  | onReadable
  /-- the running user code returns -/
  | ret
  /-- the event loop runs the oldest tick -/
  | tick
  /-- the stream's own code goes on -/
  | resume

/-- One step; `none` where the action is not possible. -/
def step (env : Environment Obj) (c : Config Obj) : Action Obj → Option (Config Obj)
  | .push chunk encoding => if c.userTurn then some (push env c chunk encoding) else none
  | .unshift chunk => if c.userTurn then some (unshift env c chunk) else none
  | .read n => if c.userTurn then some (read c n) else none
  | .setEncoding encoding => if c.userTurn then some (setEncoding c encoding) else none
  | .pause => if c.userTurn then some (pause c) else none
  | .resumeStream => if c.userTurn then some (resumeStream c) else none
  | .onData => if c.userTurn then some (onData c) else none
  | .onReadable => if c.userTurn then some (onReadable c) else none
  | .ret =>
    match c.stack with
    | .user _ :: rest => some { c with stack := rest }
    | _ => none
  | .tick =>
    match c.stack, c.ticks with
    | [], tick :: rest => some (runTick { c with ticks := rest } tick)
    | _, _ => none
  | .resume =>
    match c.stack with
    | frame :: rest => resume { c with stack := rest } frame
    | [] => none

end Readable

end IoJs.Stream
