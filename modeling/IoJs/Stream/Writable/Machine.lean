import IoJs.Stream.Writable.State

/-!
# The functions of a Writable stream

Each function of `_stream_writable.js` that touches the state, as a function on
configurations. A function that calls user code pushes the frame that continues
it, and then the frame of the user code; `resume` continues the topmost frame.
-/

namespace IoJs.Stream.Writable

variable {Obj : Type}

/-- What the stream is built from besides its options: whether `_writev` is
implemented, and the Buffer constructor on strings. -/
structure Environment where
  writev : Bool
  newBuffer : JSString → String → List UInt8

/-! ## The buffered list -/

/-- The list that starts at a reference, following `next`. -/
def follow (heap : List (WriteReq Obj)) : Nat → Option Nat → List (WriteReq Obj)
  | 0, _ => []
  | _ + 1, none => []
  | fuel + 1, some entry =>
    match heap[entry]? with
    | none => []
    | some node => node :: follow heap fuel node.next

namespace Config

/-- `getBuffer`: the requests reachable from `bufferedRequest`. -/
def getBuffer (c : Config Obj) : List (WriteReq Obj) :=
  follow c.heap c.heap.length c.state.bufferedRequest

/-- Assign fields of `state`. -/
def set (c : Config Obj) (assign : WritableState → WritableState) : Config Obj :=
  { c with state := assign c.state }

/-- Append to the trace. -/
def log (c : Config Obj) (event : Event Obj) : Config Obj := { c with trace := c.trace ++ [event] }

/-- Push a call in progress. -/
def push (c : Config Obj) (frame : Frame Obj) : Config Obj := { c with stack := frame :: c.stack }

/-- `process.nextTick` -/
def nextTick (c : Config Obj) (tick : Tick) : Config Obj := { c with ticks := c.ticks ++ [tick] }

/-- `emit`: the listeners run next. -/
def emit (c : Config Obj) (event : Emission) : Config Obj :=
  (c.log (.emitted event)).push (.user (.listeners event))

section Projections

variable (c : Config Obj)

@[simp] theorem set_state (f : WritableState → WritableState) : (c.set f).state = f c.state := rfl
@[simp] theorem set_heap (f : WritableState → WritableState) : (c.set f).heap = c.heap := rfl
@[simp] theorem set_stack (f : WritableState → WritableState) : (c.set f).stack = c.stack := rfl
@[simp] theorem set_ticks (f : WritableState → WritableState) : (c.set f).ticks = c.ticks := rfl
@[simp] theorem set_outstanding (f : WritableState → WritableState) :
    (c.set f).outstanding = c.outstanding := rfl
@[simp] theorem set_trace (f : WritableState → WritableState) : (c.set f).trace = c.trace := rfl

@[simp] theorem log_state (e : Event Obj) : (c.log e).state = c.state := rfl
@[simp] theorem log_heap (e : Event Obj) : (c.log e).heap = c.heap := rfl
@[simp] theorem log_stack (e : Event Obj) : (c.log e).stack = c.stack := rfl
@[simp] theorem log_ticks (e : Event Obj) : (c.log e).ticks = c.ticks := rfl
@[simp] theorem log_outstanding (e : Event Obj) : (c.log e).outstanding = c.outstanding := rfl
@[simp] theorem log_trace (e : Event Obj) : (c.log e).trace = c.trace ++ [e] := rfl

@[simp] theorem push_state (f : Frame Obj) : (c.push f).state = c.state := rfl
@[simp] theorem push_heap (f : Frame Obj) : (c.push f).heap = c.heap := rfl
@[simp] theorem push_stack (f : Frame Obj) : (c.push f).stack = f :: c.stack := rfl
@[simp] theorem push_ticks (f : Frame Obj) : (c.push f).ticks = c.ticks := rfl
@[simp] theorem push_outstanding (f : Frame Obj) : (c.push f).outstanding = c.outstanding := rfl
@[simp] theorem push_trace (f : Frame Obj) : (c.push f).trace = c.trace := rfl

@[simp] theorem nextTick_state (t : Tick) : (c.nextTick t).state = c.state := rfl
@[simp] theorem nextTick_heap (t : Tick) : (c.nextTick t).heap = c.heap := rfl
@[simp] theorem nextTick_stack (t : Tick) : (c.nextTick t).stack = c.stack := rfl
@[simp] theorem nextTick_ticks (t : Tick) : (c.nextTick t).ticks = c.ticks ++ [t] := rfl
@[simp] theorem nextTick_outstanding (t : Tick) : (c.nextTick t).outstanding = c.outstanding := rfl
@[simp] theorem nextTick_trace (t : Tick) : (c.nextTick t).trace = c.trace := rfl

@[simp] theorem emit_state (e : Emission) : (c.emit e).state = c.state := rfl
@[simp] theorem emit_heap (e : Emission) : (c.emit e).heap = c.heap := rfl
@[simp] theorem emit_stack (e : Emission) :
    (c.emit e).stack = .user (.listeners e) :: c.stack := rfl
@[simp] theorem emit_ticks (e : Emission) : (c.emit e).ticks = c.ticks := rfl
@[simp] theorem emit_outstanding (e : Emission) : (c.emit e).outstanding = c.outstanding := rfl
@[simp] theorem emit_trace (e : Emission) : (c.emit e).trace = c.trace ++ [.emitted e] := rfl

end Projections

/-- Is user code running, or nothing at all? -/
def userTurn (c : Config Obj) : Bool :=
  match c.stack with
  | [] => true
  | .user _ :: _ => true
  | _ => false

end Config

/-! ## Handing over -/

/-- `len` of a chunk in `writeOrBuffer` and `clearBuffer`; `none` is a TypeError. -/
def chunkLength (state : WritableState) (chunk : Chunk Obj) : Option Nat :=
  if state.objectMode then some 1 else chunk.length?

def doWrite (c : Config Obj) (handover : Handover Obj) (len : Int) (cb : Callback) : Config Obj :=
  let c := c.set fun s =>
    { s with writelen := len, writecb := some cb, writing := true, sync := true }
  (({ c with outstanding := c.outstanding ++ [handover] }.log (.handed handover)).push
    .doWrite).push (.user (.implementation handover))

/-- One chunk by `_write`. -/
def doWriteOne (c : Config Obj) (request : Request Obj) : Config Obj :=
  doWrite c ⟨false, [request]⟩ ((chunkLength c.state request.chunk).getD 0) (.write request.id)

/-- The end of the slow case of `clearBuffer`, with the `entry` it stopped at. -/
def clearSlowEnd (c : Config Obj) (entry : Option Nat) : Config Obj :=
  c.set fun s =>
    { s with
      lastBufferedRequest := if entry.isNone then none else s.lastBufferedRequest
      bufferedRequest := entry
      bufferProcessing := false }

/-- The slow case of `clearBuffer` from `entry` on: the next chunk, or the end. -/
def clearSlowFrom (c : Config Obj) (entry : Option Nat) : Config Obj :=
  match entry with
  | none => clearSlowEnd c none
  | some e =>
    match c.heap[e]? with
    | none => clearSlowEnd c none
    | some node => doWriteOne (c.push (.clearSlow e)) node.request

/-- The fast case of `clearBuffer`: the whole list by `_writev`. -/
def clearFast (c : Config Obj) : Config Obj :=
  let requests := c.getBuffer.map WriteReq.request
  doWrite
    ((c.set fun s => { s with pendingcb := s.pendingcb + 1, lastBufferedRequest := none }).push
      .clearFast)
    ⟨true, requests⟩ c.state.length (.writev (requests.map Request.id))

def clearBuffer (env : Environment) (c : Config Obj) : Config Obj :=
  let c := c.set fun s => { s with bufferProcessing := true }
  let entry := c.state.bufferedRequest
  let next := (entry.bind fun e => c.heap[e]?).bind WriteReq.next
  if env.writev && next.isSome then clearFast c else clearSlowFrom c entry

/-! ## Writing -/

def validChunk (state : WritableState) (chunk : Chunk Obj) : Bool :=
  match chunk with
  | .object _ => state.objectMode
  | _ => true

def decodeChunk (env : Environment) (state : WritableState) (chunk : Chunk Obj)
    (encoding : String) : Chunk Obj :=
  match chunk with
  | .string units =>
    if !state.objectMode && state.decodeStrings then .buffer (env.newBuffer units encoding)
    else chunk
  | _ => chunk

/-- The refusal of a write, by `writeAfterEnd` or by `validChunk`. -/
def refuse (c : Config Obj) (er : StreamError) : Config Obj :=
  (c.push (.refuse er)).emit (.error er)

/-- The buffering branch of `writeOrBuffer`. -/
def bufferRequest (c : Config Obj) (request : Request Obj) : Config Obj :=
  let new := c.heap.length
  let linked :=
    match c.state.lastBufferedRequest with
    | some last => c.heap.modify last fun node => { node with next := some new }
    | none => c.heap
  let c : Config Obj := { c with heap := linked ++ [⟨request, none⟩] }
  c.set fun s =>
    { s with
      lastBufferedRequest := some new
      bufferedRequest := if s.lastBufferedRequest.isSome then s.bufferedRequest else some new }

/-- The request that `writeOrBuffer` makes of a chunk. -/
def newRequest (env : Environment) (c : Config Obj) (chunk : Chunk Obj) (encoding : String) :
    Request Obj :=
  let chunk := decodeChunk env c.state chunk encoding
  ⟨(accepted c.trace).length, chunk, if chunk.isBuffer then "buffer" else encoding⟩

/-- `writeOrBuffer` up to the decision: `length` and `needDrain`, and the value
that `write()` will return. -/
def accept (c : Config Obj) (request : Request Obj) (len : Nat) : Config Obj :=
  let c := c.set fun s => { s with length := s.length + len }
  let ret := decide (c.state.length < c.state.highWaterMark)
  (c.set fun s => { s with needDrain := if ret then s.needDrain else true }).log
    (.accepted request ret)

@[simp] theorem accept_writing (c : Config Obj) (request : Request Obj) (len : Nat) :
    (accept c request len).state.writing = c.state.writing := rfl

@[simp] theorem accept_corked (c : Config Obj) (request : Request Obj) (len : Nat) :
    (accept c request len).state.corked = c.state.corked := rfl

def writeOrBuffer (env : Environment) (c : Config Obj) (chunk : Chunk Obj) (encoding : String) :
    Config Obj :=
  let request := newRequest env c chunk encoding
  match chunkLength c.state request.chunk with
  | none => c.log .threw
  | some len =>
    let c := accept c request len
    if c.state.writing || c.state.corked != 0 then bufferRequest c request
    else doWriteOne c request

/-- The encoding that `write` passes on. -/
def resolveEncoding (state : WritableState) (chunk : Chunk Obj) (encoding : Option String) :
    String :=
  if chunk.isBuffer then "buffer"
  else match encoding with
    | none => state.defaultEncoding
    | some e => if e = "" then state.defaultEncoding else e

/-- `Writable.prototype.write` -/
def write (env : Environment) (c : Config Obj) (chunk : Chunk Obj) (encoding : Option String) :
    Config Obj :=
  if c.state.ended then refuse c .writeAfterEnd
  else if validChunk c.state chunk then
    writeOrBuffer env (c.set fun s => { s with pendingcb := s.pendingcb + 1 }) chunk
      (resolveEncoding c.state chunk encoding)
  else refuse c .invalidChunk

/-- `Writable.prototype.cork` -/
def cork (c : Config Obj) : Config Obj := c.set fun s => { s with corked := s.corked + 1 }

/-- `Writable.prototype.uncork` -/
def uncork (env : Environment) (c : Config Obj) : Config Obj :=
  if c.state.corked != 0 then
    let c := c.set fun s => { s with corked := s.corked - 1 }
    if !c.state.writing && c.state.corked == 0 && !c.state.finished &&
        !c.state.bufferProcessing && c.state.bufferedRequest.isSome then
      clearBuffer env c
    else c
  else c

/-! ## Finishing -/

def needFinish (state : WritableState) : Bool :=
  state.ending && decide (state.length = 0) && state.bufferedRequest.isNone &&
    !state.finished && !state.writing

def prefinish (c : Config Obj) : Config Obj :=
  if c.state.prefinished then c
  else (c.set fun s => { s with prefinished := true }).emit .prefinish

def finishMaybe (c : Config Obj) : Config Obj :=
  if needFinish c.state then
    if c.state.pendingcb = 0 then prefinish (c.push .finish)
    else prefinish c
  else c

/-- `finishMaybe` after `prefinish`: `finished` is set and `'finish'` emitted. -/
def finish (c : Config Obj) : Config Obj :=
  ({ c with onceFinish := [] }.set fun s => { s with finished := true }).emit .finish

/-- `endWritable` up to `finishMaybe` -/
def endWritable (c : Config Obj) (cb : Option Nat) : Config Obj :=
  ((c.set fun s => { s with ending := true }).push (.endWritable cb)).push .finishMaybe

/-- `endWritable` after `finishMaybe` -/
def endWritableEnd (c : Config Obj) (cb : Option Nat) : Config Obj :=
  let c := match cb with
    | none => c
    | some label =>
      if c.state.finished then c.nextTick (.endCallback label)
      else { c with onceFinish := c.onceFinish ++ [label] }
  c.set fun s => { s with ended := true }

/-- `Writable.prototype.end` up to the end of `write` -/
def end_ (env : Environment) (c : Config Obj) (chunk : Chunk Obj) (encoding : Option String)
    (cb : Option Nat) : Config Obj :=
  if chunk.isNullish then c.push (.endUncork cb)
  else write env (c.push (.endUncork cb)) chunk encoding

/-- `Writable.prototype.end` after `write` -/
def endUncork (env : Environment) (c : Config Obj) (cb : Option Nat) : Config Obj :=
  let c := c.push (.endFinal cb)
  if c.state.corked != 0 then uncork env (c.set fun s => { s with corked := 1 }) else c

/-- `Writable.prototype.end` after `uncork` -/
def endFinal (c : Config Obj) (cb : Option Nat) : Config Obj :=
  if !c.state.ending && !c.state.finished then endWritable c cb else c

/-! ## Completing a hand-over -/

/-- The call of a callback that is not null. -/
def callCallback (c : Config Obj) (cb : Callback) (failed : Bool) : Config Obj :=
  match cb with
  | .write id => (c.log (.called id failed)).push (.user (.callback id))
  | .writev ids => c.push (.callbacks ids failed)

/-- One round of the loop of the `_writev` closure. -/
def callNext (c : Config Obj) (ids : List Nat) (failed : Bool) : Config Obj :=
  match ids with
  | [] => c
  | id :: rest =>
    callCallback
      ((c.set fun s => { s with pendingcb := s.pendingcb - 1 }).push (.callbacks rest failed))
      (.write id) failed

/-- `afterWrite` up to the end of `onwriteDrain` -/
def afterWrite (c : Config Obj) (finished : Bool) (cb : Callback) : Config Obj :=
  let c := c.push (.afterWrite cb)
  if !finished && decide (c.state.length = 0) && c.state.needDrain then
    (c.set fun s => { s with needDrain := false }).emit .drain
  else c

/-- `afterWrite` after `onwriteDrain` -/
def afterWriteEnd (c : Config Obj) (cb : Callback) : Config Obj :=
  callCallback
    ((c.set fun s => { s with pendingcb := s.pendingcb - 1 }).push .finishMaybe) cb false

def onwriteStateUpdate (state : WritableState) : WritableState :=
  { state with
    writing := false
    writecb := none
    length := state.length - state.writelen
    writelen := 0 }

/-- `onwriteError` after `cb(er)` -/
def onwriteErrorEnd (c : Config Obj) : Config Obj :=
  (c.set fun s => { s with errorEmitted := true }).emit (.error .reported)

def onwriteError (c : Config Obj) (sync : Bool) (cb : Callback) : Config Obj :=
  if sync then onwriteErrorEnd (c.nextTick (.onwriteError cb))
  else
    callCallback
      ((c.set fun s => { s with pendingcb := s.pendingcb - 1 }).push .onwriteError) cb true

/-- `onwrite` after `clearBuffer` -/
def onwriteEnd (c : Config Obj) (sync finished : Bool) (cb : Callback) : Config Obj :=
  if sync then c.nextTick (.afterWrite finished cb) else afterWrite c finished cb

/-- The hand-over at `index` reports its outcome, and `onwriteStateUpdate` runs. -/
def settle (c : Config Obj) (index : Nat) (handover : Handover Obj) (failed : Bool) : Config Obj :=
  ({ c with outstanding := c.outstanding.eraseIdx index }.set onwriteStateUpdate).log
    (.completed handover failed)

/-- `onwrite` for a success, with `sync` and `cb` as they were at the call. -/
def onwriteSuccess (env : Environment) (c : Config Obj) (sync : Bool) (cb : Callback) :
    Config Obj :=
  let finished := needFinish c.state
  let c := c.push (.onwrite sync finished cb)
  if !finished && c.state.corked == 0 && !c.state.bufferProcessing &&
      c.state.bufferedRequest.isSome then
    clearBuffer env c
  else c

/-- `onwrite`, called when the hand-over at `index` reports its outcome. -/
def onwrite (env : Environment) (c : Config Obj) (index : Nat) (handover : Handover Obj)
    (cb : Callback) (failed : Bool) : Config Obj :=
  let sync := c.state.sync
  let c := settle c index handover failed
  if failed then onwriteError c sync cb else onwriteSuccess env c sync cb

/-! ## The machine -/

/-- Continue the call in progress whose frame was just popped. -/
def resume (env : Environment) (c : Config Obj) : Frame Obj → Option (Config Obj)
  | .user _ => none
  | .refuse er => some (c.nextTick (.refused er))
  | .doWrite => some (c.set fun s => { s with sync := false })
  | .clearFast =>
    some (c.set fun s => { s with bufferedRequest := none, bufferProcessing := false })
  | .clearSlow entry =>
    let next := (c.heap[entry]?).bind WriteReq.next
    some (if c.state.writing then clearSlowEnd c next else clearSlowFrom c next)
  | .onwrite sync finished cb => some (onwriteEnd c sync finished cb)
  | .afterWrite cb => some (afterWriteEnd c cb)
  | .callbacks ids failed => some (callNext c ids failed)
  | .onwriteError => some (onwriteErrorEnd c)
  | .finishMaybe => some (finishMaybe c)
  | .finish => some (finish c)
  | .endUncork cb => some (endUncork env c cb)
  | .endFinal cb => some (endFinal c cb)
  | .endWritable cb => some (endWritableEnd c cb)

/-- Run a function queued with `process.nextTick`. -/
def runTick (c : Config Obj) : Tick → Config Obj
  | .afterWrite finished cb => afterWrite c finished cb
  | .onwriteError cb =>
    callCallback (c.set fun s => { s with pendingcb := s.pendingcb - 1 }) cb true
  | .refused er => c.push (.user (.refused er))
  | .endCallback label => c.push (.user (.endCallback label))

/-- What can happen next. -/
inductive Action (Obj : Type) where
  | write (chunk : Chunk Obj) (encoding : Option String)
  | cork
  | uncork
  | end_ (chunk : Chunk Obj) (encoding : Option String) (cb : Option Nat)
  /-- the completion callback of an outstanding hand-over is called -/
  | complete (index : Nat) (failed : Bool)
  /-- the running user code returns -/
  | ret
  /-- the event loop runs the oldest tick -/
  | tick
  /-- the stream's own code goes on -/
  | resume

/-- One step; `none` where the action is not possible. -/
def step (env : Environment) (c : Config Obj) : Action Obj → Option (Config Obj)
  | .write chunk encoding => if c.userTurn then some (write env c chunk encoding) else none
  | .cork => if c.userTurn then some (cork c) else none
  | .uncork => if c.userTurn then some (uncork env c) else none
  | .end_ chunk encoding cb => if c.userTurn then some (end_ env c chunk encoding cb) else none
  | .complete index failed =>
    if c.userTurn then
      match c.outstanding[index]?, c.state.writecb with
      | some handover, some cb => some (onwrite env c index handover cb failed)
      | _, _ => none
    else none
  | .ret =>
    match c.stack with
    | .user _ :: rest => some { c with stack := rest }
    | _ => none
  | .tick =>
    match c.stack, c.ticks with
    | [], tick :: rest => some (runTick { c with ticks := rest } tick)
    | _, _ => none
  | .resume =>
    match c.stack with
    | frame :: rest => resume env { c with stack := rest } frame
    | [] => none

/-! ## Parts of concrete histories -/

/-- A stream without `_writev`. -/
def plainEnvironment : Environment := ⟨false, fun units _ => units.map UInt16.toUInt8⟩

/-- A Buffer of one byte. -/
def byte (b : UInt8) : Chunk Empty := .buffer [b]

/-- A stream with `_writev`. -/
def vectorEnvironment : Environment := ⟨true, fun units _ => units.map UInt16.toUInt8⟩

end IoJs.Stream.Writable
