import IoJs.Stream.Chunk

/-!
# The state of a Writable stream

The fields of `WritableState`, the linked list of buffered `WriteReq`s, and what
the JavaScript run time adds around them: the calls in progress, the callbacks
queued with `process.nextTick`, and the hand-overs to `_write` and `_writev`
whose completion callback has not been called.
-/

namespace IoJs.Stream.Writable

variable {Obj : Type}

/-- An accepted write: its number, counted from 0 in the order of acceptance,
and its chunk and encoding as they are passed on. The number also names the
callback given with the write. -/
structure Request (Obj : Type) where
  id : Nat
  chunk : Chunk Obj
  encoding : String
  deriving DecidableEq

/-- `WriteReq`: a buffered write, and the reference to the next one. -/
structure WriteReq (Obj : Type) where
  request : Request Obj
  next : Option Nat

/-- What `state.writecb` can hold: the callback of one write, or the closure that
`clearBuffer` makes for `_writev` over the callbacks of several. -/
inductive Callback where
  | write (id : Nat)
  | writev (ids : List Nat)

/-- The writes whose callbacks a callback calls. -/
def Callback.ids : Callback → List Nat
  | .write id => [id]
  | .writev ids => ids

/-- The unit of `pendingcb` that a `_writev` closure holds for itself. -/
def Callback.units : Callback → Nat
  | .write _ => 0
  | .writev _ => 1

structure WritableState where
  objectMode : Bool
  highWaterMark : Int
  needDrain : Bool
  ending : Bool
  ended : Bool
  finished : Bool
  decodeStrings : Bool
  defaultEncoding : String
  length : Int
  writing : Bool
  corked : Nat
  sync : Bool
  bufferProcessing : Bool
  writecb : Option Callback
  writelen : Int
  bufferedRequest : Option Nat
  lastBufferedRequest : Option Nat
  pendingcb : Int
  prefinished : Bool
  errorEmitted : Bool

/-- The options that the constructor reads; `none` is an option left out. -/
structure Options where
  objectMode : Bool := false
  highWaterMark : Option Int := none
  decodeStrings : Bool := true
  defaultEncoding : Option String := none

/-- The constructor `WritableState`. -/
def WritableState.new (options : Options) : WritableState where
  objectMode := options.objectMode
  highWaterMark :=
    toInt32 (options.highWaterMark.getD (if options.objectMode then 16 else 16 * 1024))
  needDrain := false
  ending := false
  ended := false
  finished := false
  decodeStrings := options.decodeStrings
  defaultEncoding := (options.defaultEncoding.filter (· ≠ "")).getD "utf8"
  length := 0
  writing := false
  corked := 0
  sync := true
  bufferProcessing := false
  writecb := none
  writelen := 0
  bufferedRequest := none
  lastBufferedRequest := none
  pendingcb := 0
  prefinished := false
  errorEmitted := false

/-- One call of `_write` (`writev := false`) or `_writev`. -/
structure Handover (Obj : Type) where
  writev : Bool
  requests : List (Request Obj)
  deriving DecidableEq

/-- The errors a Writable emits. -/
inductive StreamError where
  | writeAfterEnd
  | invalidChunk
  | reported
  deriving DecidableEq

/-- The events a Writable emits. -/
inductive Emission where
  | drain
  | error (er : StreamError)
  | prefinish
  | finish
  deriving DecidableEq

/-- Code that the stream calls and does not control. -/
inductive UserCode (Obj : Type) where
  /-- the body of `_write` or `_writev` -/
  | implementation (handover : Handover Obj)
  /-- the callback of an accepted write -/
  | callback (id : Nat)
  /-- the callback of a write that was refused -/
  | refused (er : StreamError)
  /-- the callback given to `end()` -/
  | endCallback (label : Nat)
  /-- the listeners of an event -/
  | listeners (event : Emission)

/-- A call in progress: user code, or the rest of a function of the stream. -/
inductive Frame (Obj : Type) where
  | user (code : UserCode Obj)
  /-- `writeAfterEnd` and `validChunk` after `emit('error')` -/
  | refuse (er : StreamError)
  /-- `doWrite` after the call of `_write` or `_writev` -/
  | doWrite
  /-- `clearBuffer` after `doWrite` in the fast case -/
  | clearFast
  /-- `clearBuffer` after `doWrite` of `entry` in the slow case -/
  | clearSlow (entry : Nat)
  /-- `onwrite` after `clearBuffer` -/
  | onwrite (sync finished : Bool) (cb : Callback)
  /-- `afterWrite` after `onwriteDrain` -/
  | afterWrite (cb : Callback)
  /-- the loop of the `_writev` closure -/
  | callbacks (ids : List Nat) (failed : Bool)
  /-- `onwriteError` after `cb(er)` -/
  | onwriteError
  | finishMaybe
  /-- `finishMaybe` after `prefinish`, with `pendingcb === 0` -/
  | finish
  /-- `end` after `write` -/
  | endUncork (cb : Option Nat)
  /-- `end` after `uncork` -/
  | endFinal (cb : Option Nat)
  /-- `endWritable` after `finishMaybe` -/
  | endWritable (cb : Option Nat)

/-- A function queued with `process.nextTick`. -/
inductive Tick where
  | afterWrite (finished : Bool) (cb : Callback)
  | onwriteError (cb : Callback)
  | refused (er : StreamError)
  | endCallback (label : Nat)

/-- What an observer of the stream sees. -/
inductive Event (Obj : Type) where
  /-- `write()` accepts a chunk, and what it returns -/
  | accepted (request : Request Obj) (ret : Bool)
  /-- `write()` throws a TypeError at `chunk.length` -/
  | threw
  | handed (handover : Handover Obj)
  | completed (handover : Handover Obj) (failed : Bool)
  | called (id : Nat) (failed : Bool)
  | emitted (event : Emission)
  deriving DecidableEq

/-- A Writable and the run time around it. -/
structure Config (Obj : Type) where
  state : WritableState
  heap : List (WriteReq Obj)
  stack : List (Frame Obj)
  ticks : List Tick
  outstanding : List (Handover Obj)
  /-- callbacks attached with `once('finish', cb)` by `end()` -/
  onceFinish : List Nat
  trace : List (Event Obj)

/-- A new stream, before any call. -/
def Config.new (options : Options) : Config Obj where
  state := .new options
  heap := []
  stack := []
  ticks := []
  outstanding := []
  onceFinish := []
  trace := []

/-! ## What the trace says -/

/-- The accepted writes, in the order of acceptance. -/
def accepted (trace : List (Event Obj)) : List (Request Obj) :=
  trace.filterMap fun
    | .accepted request _ => some request
    | _ => none

/-- The writes handed to `_write` and `_writev`, flattened. -/
def handed (trace : List (Event Obj)) : List (Request Obj) :=
  trace.flatMap fun
    | .handed handover => handover.requests
    | _ => []

/-- The accepted writes whose callbacks have been called, in the order of the calls. -/
def called (trace : List (Event Obj)) : List Nat :=
  trace.filterMap fun
    | .called id _ => some id
    | _ => none

/-- The hand-overs that have reported their outcome, and whether they failed. -/
def completions (trace : List (Event Obj)) : List (Handover Obj × Bool) :=
  trace.filterMap fun
    | .completed handover failed => some (handover, failed)
    | _ => none

/-- Is a `'drain'` owed after an event, if one is or is not before it? It is after
`write()` returned false, and no more after `'drain'` was emitted. -/
def owe (owed : Bool) : Event Obj → Bool
  | .accepted _ false => true
  | .emitted .drain => false
  | _ => owed

/-- How many calls of `write()` threw. -/
def thrown (trace : List (Event Obj)) : Nat :=
  (trace.filter fun
    | .threw => true
    | _ => false).length

section Trace

variable (trace trace' : List (Event Obj)) (event : Event Obj)

theorem accepted_append : accepted (trace ++ trace') = accepted trace ++ accepted trace' :=
  List.filterMap_append

theorem handed_append : handed (trace ++ trace') = handed trace ++ handed trace' :=
  List.flatMap_append

theorem called_append : called (trace ++ trace') = called trace ++ called trace' :=
  List.filterMap_append

theorem completions_append :
    completions (trace ++ trace') = completions trace ++ completions trace' :=
  List.filterMap_append

@[simp] theorem accepted_append_singleton : accepted (trace ++ [event]) =
    accepted trace ++ (match event with | .accepted request _ => [request] | _ => []) := by
  cases event <;> simp [accepted]

@[simp] theorem handed_append_singleton : handed (trace ++ [event]) =
    handed trace ++ (match event with | .handed handover => handover.requests | _ => []) := by
  cases event <;> simp [handed]

@[simp] theorem called_append_singleton : called (trace ++ [event]) =
    called trace ++ (match event with | .called id _ => [id] | _ => []) := by
  cases event <;> simp [called]

@[simp] theorem completions_append_singleton : completions (trace ++ [event]) = completions trace ++
    (match event with | .completed handover failed => [(handover, failed)] | _ => []) := by
  cases event <;> simp [completions]

@[simp] theorem thrown_append_singleton :
    thrown (trace ++ [event]) = thrown trace + (match event with | .threw => 1 | _ => 0) := by
  cases event <;> simp [thrown]

end Trace

end IoJs.Stream.Writable
