import IoJs.StringDecoder

/-!
# The state of a Readable stream

The fields of `ReadableState` that reading and pushing use, and the run time around them.
What only `pipe()` uses is left out.
-/

namespace IoJs.Stream.Readable

variable {Obj : Type}

structure ReadableState (Obj : Type) where
  objectMode : Bool
  highWaterMark : Int
  buffer : List (Chunk Obj)
  length : Int
  /-- `none` is null: neither `resume()` nor `pause()` was called -/
  flowing : Option Bool
  ended : Bool
  endEmitted : Bool
  reading : Bool
  sync : Bool
  needReadable : Bool
  emittedReadable : Bool
  readableListening : Bool
  defaultEncoding : String
  readingMore : Bool
  resumeScheduled : Bool
  decoder : Option StringDecoder
  encoding : Option String

/-- The options that the constructor reads; `none` is an option left out. -/
structure Options where
  objectMode : Bool := false
  highWaterMark : Option Int := none
  defaultEncoding : Option String := none
  encoding : Option String := none

/-- The constructor `ReadableState`. -/
def ReadableState.new (options : Options) : ReadableState Obj where
  objectMode := options.objectMode
  highWaterMark :=
    toInt32 (options.highWaterMark.getD (if options.objectMode then 16 else 16 * 1024))
  buffer := []
  length := 0
  flowing := none
  ended := false
  endEmitted := false
  reading := false
  sync := true
  needReadable := false
  emittedReadable := false
  readableListening := false
  defaultEncoding := (options.defaultEncoding.filter (· ≠ "")).getD "utf8"
  readingMore := false
  resumeScheduled := false
  decoder := (options.encoding.filter (· ≠ "")).map StringDecoder.new
  encoding := options.encoding.filter (· ≠ "")

/-- The errors a Readable emits. -/
inductive StreamError where
  | invalidChunk
  | pushAfterEOF
  | unshiftAfterEnd
  deriving DecidableEq

/-- The events a Readable emits. -/
inductive Emission (Obj : Type) where
  | data (chunk : Chunk Obj)
  | readable
  | end_
  | pause
  | resume
  | error (er : StreamError)
  deriving DecidableEq

/-- Code that the stream calls and does not control. -/
inductive UserCode (Obj : Type) where
  /-- the body of `_read` -/
  | implementation
  /-- the listeners of an event -/
  | listeners (event : Emission Obj)
  deriving DecidableEq

/-- A call in progress: user code, or the rest of a function of the stream. -/
inductive Frame (Obj : Type) where
  | user (code : UserCode Obj)
  /-- `read(nOrig)` after the call of `_read`, with the `n` computed before it -/
  | read (nOrig : Option Int) (n : Int)
  /-- `read` with nothing left to do but to return -/
  | readReturn (ret : Option (Chunk Obj))
  /-- `flow` after `read()` -/
  | flow
  /-- `emitReadable_` after `emit('readable')` -/
  | emitReadable
  /-- `readableAddChunk` after `emit('data')` -/
  | addChunkRead
  /-- `readableAddChunk` before `maybeReadMore` -/
  | addChunkMore
  /-- `readableAddChunk` with nothing left to do but to return -/
  | addChunkReturn
  /-- the loop of `maybeReadMore_` after `read(0)` -/
  | maybeReadMore (len : Int)
  /-- `resume_` after the first `read(0)` -/
  | resumeEmit
  /-- `resume_` after `emit('resume')` -/
  | resumeFlow
  /-- `resume_` after `flow` -/
  | resumeRead
  deriving DecidableEq

/-- A function queued with `process.nextTick`. -/
inductive Tick where
  | emitReadable
  | maybeReadMore
  | resume
  | endReadable
  /-- `read(0)`, queued by `on('readable')` -/
  | readZero

/-- What goes into the stream and what comes out of it. -/
inductive Event (Obj : Type) where
  /-- a chunk is appended, as it comes out of the decoder -/
  | pushed (chunk : Chunk Obj)
  /-- a chunk is put back in front -/
  | unshifted (chunk : Chunk Obj)
  /-- `push(null)` ends the stream -/
  | ended
  | emitted (event : Emission Obj)
  /-- `read()` returns -/
  | result (ret : Option (Chunk Obj))
  /-- `push()` or `unshift()` returns -/
  | answered (more : Bool)
  /-- `endReadable` throws -/
  | threw
  deriving DecidableEq

/-- A Readable and the run time around it. -/
structure Config (Obj : Type) where
  state : ReadableState Obj
  /-- `stream.readable` -/
  readable : Bool
  stack : List (Frame Obj)
  ticks : List Tick
  /-- what the last call of `read()` returned -/
  result : Option (Chunk Obj)
  trace : List (Event Obj)

/-- A new stream, before any call. -/
def Config.new (options : Options) : Config Obj where
  state := .new options
  readable := true
  stack := []
  ticks := []
  result := none
  trace := []

end IoJs.Stream.Readable
