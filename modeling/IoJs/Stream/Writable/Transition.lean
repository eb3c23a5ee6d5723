import IoJs.Stream.Writable.Machine

/-!
# What a step can do

`step` spelled out: one constructor of `Transition` for each way through the code
from one point where user code can run to the next, with the conditions under
which it is taken and the configuration it leads to.
-/

namespace IoJs.Stream.Writable

open Option

variable {Obj : Type} {env : Environment} {c c' b : Config Obj} {a : Action Obj} {chunk : Chunk Obj}
  {encoding : String}

/-- The chunk that an action passes to `write()`. -/
def Action.chunk? : Action Obj → Option (Chunk Obj)
  | .write chunk _ => some chunk
  | .end_ chunk _ _ => if chunk.isNullish then none else some chunk
  | _ => none

/-- Does the action pass a chunk to `write()` that is accepted? -/
def Action.accepts (state : WritableState) (a : Action Obj) : Bool :=
  match a.chunk? with
  | none => false
  | some chunk => !state.ended && validChunk state chunk && (state.objectMode || !chunk.isNullish)

/-- Is it the call of a method of the stream? -/
def Action.isMethod : Action Obj → Bool
  | .write _ _ => true
  | .cork => true
  | .uncork => true
  | .end_ _ _ _ => true
  | _ => false

/-- Null and undefined are passed to `write()` only in object mode. -/
def Action.present (state : WritableState) (a : Action Obj) : Bool :=
  a.chunk?.all fun chunk => state.objectMode || !chunk.isNullish

theorem Action.isMethod_of_accepts {state : WritableState} (a : Action Obj)
    (accepts : a.accepts state = true) : a.isMethod = true := by
  cases a <;> first | rfl | cases accepts

/-- A method is called only where the program has its turn. -/
theorem turn_of_step
    (method : a.isMethod = true) (stepped : step env c a = some c') : c.userTurn = true := by
  cases a with
  | write | cork | uncork | end_ =>
    exact (ite_none_right_eq_some.mp stepped).1
  | _ => cases method

/-! ## `write()` -/

/-- `pendingcb++` -/
def Config.charge (c : Config Obj) : Config Obj :=
  c.set fun s => { s with pendingcb := s.pendingcb + 1 }

theorem chunkLength_newRequest {len : Nat}
    (measured : chunkLength c.state (newRequest env c chunk encoding).chunk = some len) :
    c.state.objectMode = true ∨ chunk.isNullish = false := by
  simp only [chunkLength] at measured
  split at measured
  · left; assumption
  right
  cases chunk with
  | null => cases measured
  | undefined => cases measured
  | _ => rfl

/-- What `write()` does with a chunk on the configuration `b`. -/
inductive Written (b : Config Obj) (chunk : Chunk Obj) : Config Obj → Prop where
  | refused (er : StreamError) : Written b chunk (refuse b er)
  | threw (mode : b.state.objectMode = false) (nullish : chunk.isNullish = true) :
      Written b chunk (b.charge.log .threw)
  | buffered (request : Request Obj) (len : Nat)
      (number : request.id = (accepted b.trace).length)
      (measured : chunkLength b.state request.chunk = some len)
      (open_ : b.state.ended = false) (valid : validChunk b.state chunk = true)
      (present : b.state.objectMode = true ∨ chunk.isNullish = false)
      (busy : b.state.writing = true ∨ b.state.corked ≠ 0) :
      Written b chunk (bufferRequest (accept b.charge request len) request)
  | direct (request : Request Obj) (len : Nat)
      (number : request.id = (accepted b.trace).length)
      (measured : chunkLength b.state request.chunk = some len)
      (open_ : b.state.ended = false) (valid : validChunk b.state chunk = true)
      (present : b.state.objectMode = true ∨ chunk.isNullish = false)
      (idle : b.state.writing = false) (uncorked : b.state.corked = 0) :
      Written b chunk (doWriteOne (accept b.charge request len) request)

theorem nullish_of_unmeasured (valid : validChunk c.state chunk = true)
    (unmeasured : chunkLength c.state (newRequest env c chunk encoding).chunk = none) :
    c.state.objectMode = false ∧ chunk.isNullish = true := by
  simp only [chunkLength] at unmeasured
  split at unmeasured
  · cases unmeasured
  rename_i mode
  rw [Bool.not_eq_true] at mode
  refine ⟨mode, ?_⟩
  cases chunk with
  | null => rfl
  | undefined => rfl
  | object => rw [validChunk, mode] at valid; cases valid
  | buffer => cases unmeasured
  | string =>
    simp only [newRequest, decodeChunk] at unmeasured
    split at unmeasured <;> cases unmeasured

theorem written (env : Environment) (b : Config Obj) (chunk : Chunk Obj)
    (encoding : Option String) : Written b chunk (write env b chunk encoding) := by
  simp only [write]
  split
  · exact .refused _
  rename_i open_
  rw [Bool.not_eq_true] at open_
  split
  · rename_i valid
    change Written b chunk (writeOrBuffer env b.charge chunk _)
    simp only [writeOrBuffer]
    split
    · rename_i unmeasured
      obtain ⟨mode, nullish⟩ := nullish_of_unmeasured (c := b.charge) valid unmeasured
      exact .threw mode nullish
    rename_i len measured
    have present := chunkLength_newRequest (c := b.charge) measured
    split
    · rename_i busy
      simp only [accept_writing, accept_corked, Bool.or_eq_true, bne_iff_ne, ne_eq] at busy
      exact .buffered _ len rfl measured open_ valid present busy
    rename_i idle
    simp only [accept_writing, accept_corked, Bool.or_eq_true, bne_iff_ne, ne_eq, not_or,
      Bool.not_eq_true, not_not] at idle
    exact .direct _ len rfl measured open_ valid present idle.1 idle.2
  · exact .refused _

/-! ## `clearBuffer` -/

/-- `bufferProcessing = true` -/
def Config.process (c : Config Obj) : Config Obj :=
  c.set fun s => { s with bufferProcessing := true }

/-- What `clearBuffer` does on the configuration `b`, up to the first hand-over. -/
inductive Flushed (env : Environment) (b : Config Obj) : Config Obj → Prop where
  | fast (vector : env.writev = true) : Flushed env b (clearFast b.process)
  | slow (e : Nat) (node : WriteReq Obj) (first : b.state.bufferedRequest = some e)
      (found : b.heap[e]? = some node) :
      Flushed env b (doWriteOne (b.process.push (.clearSlow e)) node.request)
  | dangling (e : Nat) (first : b.state.bufferedRequest = some e)
      (missing : b.heap[e]? = none) : Flushed env b (clearSlowEnd b.process none)

/-- `clearBuffer` is due: nothing else hands over the buffered list. -/
structure Config.Ready (b : Config Obj) : Prop where
  writing : b.state.writing = false
  corked : b.state.corked = 0
  processing : b.state.bufferProcessing = false
  buffered : b.state.bufferedRequest.isSome = true

/-- Something else hands over the buffered list, or it is empty, or it never is
handed over because the stream has finished. -/
def Config.Rests (b : Config Obj) : Prop :=
  b.state.writing = true ∨ b.state.corked ≠ 0 ∨ b.state.finished = true ∨
    b.state.bufferProcessing = true ∨ b.state.bufferedRequest = none

theorem flushed (env : Environment) (ready : b.Ready) : Flushed env b (clearBuffer env b) := by
  obtain ⟨e, first⟩ := isSome_iff_exists.mp ready.buffered
  have first' : b.process.state.bufferedRequest = some e := first
  change Flushed env b (if _ then clearFast b.process else clearSlowFrom b.process _)
  split
  · rename_i guard
    exact .fast (Bool.and_eq_true _ _ ▸ guard).1
  change Flushed env b (clearSlowFrom b.process b.process.state.bufferedRequest)
  rw [first']
  cases found : b.heap[e]? with
  | none =>
    have missing : b.process.heap[e]? = none := found
    simpa [clearSlowFrom, missing] using .dangling e first found
  | some node =>
    have here : b.process.heap[e]? = some node := found
    simpa [clearSlowFrom, here] using .slow e node first found

/-! ## Steps -/

/-- The configuration on which an action calls `write()`. -/
inductive Calls (c : Config Obj) : Action Obj → Config Obj → Prop where
  | write (chunk : Chunk Obj) (encoding : Option String) : Calls c (.write chunk encoding) c
  | end_ (chunk : Chunk Obj) (encoding : Option String) (cb : Option Nat) :
      Calls c (.end_ chunk encoding cb) (c.push (.endUncork cb))

/-- What comes before the decision to call `clearBuffer`. -/
inductive Opened (c : Config Obj) : Action Obj → Config Obj → Prop where
  | uncork (turn : c.userTurn = true) (corked : c.state.corked ≠ 0) :
      Opened c .uncork (c.set fun s => { s with corked := s.corked - 1 })
  | end_ (cb : Option Nat) (rest : List (Frame Obj)) (top : c.stack = .endUncork cb :: rest)
      (corked : c.state.corked ≠ 0) :
      Opened c .resume
        (({ c with stack := rest }.push (.endFinal cb)).set fun s => { s with corked := 0 })
  | onwrite (index : Nat) (handover : Handover Obj) (cb : Callback) (turn : c.userTurn = true)
      (found : c.outstanding[index]? = some handover) (kept : c.state.writecb = some cb) :
      Opened c (.complete index false)
        ((settle c index handover false).push
          (.onwrite c.state.sync (needFinish (settle c index handover false).state) cb))

/-- `pendingcb--` -/
def Config.pay (c : Config Obj) : Config Obj :=
  c.set fun s => { s with pendingcb := s.pendingcb - 1 }

/-- What one step does. -/
inductive Transition (env : Environment) (c : Config Obj) : Action Obj → Config Obj → Prop where
  | written {a : Action Obj} {b c' : Config Obj} {chunk : Chunk Obj} (turn : c.userTurn = true)
      (calls : Calls c a b) (passes : a.chunk? = some chunk) (done : Written b chunk c') :
      Transition env c a c'
  | endCalled (chunk : Chunk Obj) (encoding : Option String) (cb : Option Nat)
      (turn : c.userTurn = true) :
      Transition env c (.end_ chunk encoding cb) (c.push (.endUncork cb))
  | cork (turn : c.userTurn = true) :
      Transition env c .cork (c.set fun s => { s with corked := s.corked + 1 })
  | uncorked : Transition env c .uncork c
  | opened {a : Action Obj} {b : Config Obj} (prepared : Opened c a b) (rests : b.Rests) :
      Transition env c a b
  | flushed {a : Action Obj} {b c' : Config Obj} (prepared : Opened c a b) (ready : b.Ready)
      (done : Flushed env b c') : Transition env c a c'
  | failed (index : Nat) (handover : Handover Obj) (cb : Callback) (turn : c.userTurn = true)
      (found : c.outstanding[index]? = some handover) (kept : c.state.writecb = some cb) :
      Transition env c (.complete index true)
        (onwriteError (settle c index handover true) c.state.sync cb)
  | returned (code : UserCode Obj) (rest : List (Frame Obj)) (top : c.stack = .user code :: rest) :
      Transition env c .ret { c with stack := rest }
  | ticked (tick : Tick) (rest : List Tick) (empty : c.stack = [])
      (first : c.ticks = tick :: rest) :
      Transition env c .tick (runTick { c with ticks := rest } tick)
  | refuse (er : StreamError) (rest : List (Frame Obj)) (top : c.stack = .refuse er :: rest) :
      Transition env c .resume ({ c with stack := rest }.nextTick (.refused er))
  | doWrite (rest : List (Frame Obj)) (top : c.stack = .doWrite :: rest) :
      Transition env c .resume ({ c with stack := rest }.set fun s => { s with sync := false })
  | clearFast (rest : List (Frame Obj)) (top : c.stack = .clearFast :: rest) :
      Transition env c .resume
        ({ c with stack := rest }.set fun s =>
          { s with bufferedRequest := none, bufferProcessing := false })
  | clearSlow (entry : Nat) (rest : List (Frame Obj)) (top : c.stack = .clearSlow entry :: rest)
      (stops : c.state.writing = true ∨ (c.heap[entry]?).bind WriteReq.next = none) :
      Transition env c .resume
        (clearSlowEnd { c with stack := rest } ((c.heap[entry]?).bind WriteReq.next))
  | clearNext (entry next : Nat) (node : WriteReq Obj) (rest : List (Frame Obj))
      (top : c.stack = .clearSlow entry :: rest)
      (after : (c.heap[entry]?).bind WriteReq.next = some next) (found : c.heap[next]? = some node)
      (idle : c.state.writing = false) :
      Transition env c .resume
        (doWriteOne ({ c with stack := rest }.push (.clearSlow next)) node.request)
  | clearDangling (entry next : Nat) (rest : List (Frame Obj))
      (top : c.stack = .clearSlow entry :: rest)
      (after : (c.heap[entry]?).bind WriteReq.next = some next) (missing : c.heap[next]? = none) :
      Transition env c .resume (clearSlowEnd { c with stack := rest } none)
  | onwriteLater (finished : Bool) (cb : Callback) (rest : List (Frame Obj))
      (top : c.stack = .onwrite true finished cb :: rest) :
      Transition env c .resume ({ c with stack := rest }.nextTick (.afterWrite finished cb))
  | onwriteNow (finished : Bool) (cb : Callback) (rest : List (Frame Obj))
      (top : c.stack = .onwrite false finished cb :: rest) :
      Transition env c .resume (Writable.afterWrite { c with stack := rest } finished cb)
  | afterWrite (cb : Callback) (rest : List (Frame Obj)) (top : c.stack = .afterWrite cb :: rest) :
      Transition env c .resume (afterWriteEnd { c with stack := rest } cb)
  | callbacks (ids : List Nat) (failed : Bool) (rest : List (Frame Obj))
      (top : c.stack = .callbacks ids failed :: rest) :
      Transition env c .resume (callNext { c with stack := rest } ids failed)
  | onwriteError (rest : List (Frame Obj)) (top : c.stack = .onwriteError :: rest) :
      Transition env c .resume (onwriteErrorEnd { c with stack := rest })
  | notYet (rest : List (Frame Obj)) (top : c.stack = .finishMaybe :: rest) :
      Transition env c .resume { c with stack := rest }
  | awaits (rest : List (Frame Obj)) (top : c.stack = .finishMaybe :: rest)
      (need : needFinish c.state = true) :
      Transition env c .resume (prefinish { c with stack := rest })
  | finishes (rest : List (Frame Obj)) (top : c.stack = .finishMaybe :: rest)
      (need : needFinish c.state = true) (none : c.state.pendingcb = 0) :
      Transition env c .resume (prefinish ({ c with stack := rest }.push .finish))
  | finish (rest : List (Frame Obj)) (top : c.stack = .finish :: rest) :
      Transition env c .resume (finish { c with stack := rest })
  | endUncork (cb : Option Nat) (rest : List (Frame Obj)) (top : c.stack = .endUncork cb :: rest) :
      Transition env c .resume ({ c with stack := rest }.push (.endFinal cb))
  | endAgain (cb : Option Nat) (rest : List (Frame Obj)) (top : c.stack = .endFinal cb :: rest) :
      Transition env c .resume { c with stack := rest }
  | endFinal (cb : Option Nat) (rest : List (Frame Obj)) (top : c.stack = .endFinal cb :: rest)
      (first : c.state.ending = false) (open_ : c.state.finished = false) :
      Transition env c .resume (endWritable { c with stack := rest } cb)
  | endWritable (cb : Option Nat) (rest : List (Frame Obj))
      (top : c.stack = .endWritable cb :: rest) :
      Transition env c .resume (endWritableEnd { c with stack := rest } cb)

theorem transition_flush (prepared : Opened c a b) : Transition env c a
    (if !b.state.writing && b.state.corked == 0 && !b.state.finished &&
      !b.state.bufferProcessing && b.state.bufferedRequest.isSome then clearBuffer env b
    else b) := by
  split
  · rename_i guard
    simp only [Bool.and_eq_true, Bool.not_eq_true', beq_iff_eq] at guard
    obtain ⟨⟨⟨⟨writing, corked⟩, -⟩, processing⟩, buffered⟩ := guard
    have ready : b.Ready := ⟨writing, corked, processing, buffered⟩
    exact .flushed prepared ready (flushed env ready)
  rename_i guard
  refine .opened prepared ?_
  simp only [Bool.and_eq_true, Bool.not_eq_true', beq_iff_eq, not_and_or, Bool.not_eq_false,
    Bool.not_eq_true, isSome_eq_false_iff, isNone_iff_eq_none] at guard
  tauto

theorem transition_onwrite {index : Nat}
    {handover : Handover Obj} {cb : Callback} (turn : c.userTurn = true)
    (found : c.outstanding[index]? = some handover) (kept : c.state.writecb = some cb) :
    Transition env c (.complete index false)
      (onwriteSuccess env (settle c index handover false) c.state.sync cb) := by
  have idle : (settle c index handover false).state.writing = false := rfl
  have prepared := Opened.onwrite index handover cb turn found kept
  simp only [onwriteSuccess]
  generalize (settle c index handover false) = settled at *
  by_cases guard : (!needFinish settled.state && settled.state.corked == 0 &&
      !settled.state.bufferProcessing && settled.state.bufferedRequest.isSome) = true
  · rw [Config.push_state, if_pos guard]
    simp only [Bool.and_eq_true, Bool.not_eq_true', beq_iff_eq] at guard
    obtain ⟨⟨⟨-, corked⟩, processing⟩, buffered⟩ := guard
    have ready : (settled.push (.onwrite c.state.sync (needFinish settled.state) cb)).Ready :=
      ⟨idle, corked, processing, buffered⟩
    exact .flushed prepared ready (flushed env ready)
  rw [Config.push_state, if_neg guard]
  refine .opened prepared ?_
  by_cases none : settled.state.bufferedRequest = none
  · exact .inr (.inr (.inr (.inr none)))
  -- a buffered list rules out that the stream is ready to finish
  have notYet : needFinish settled.state = false := by simp [needFinish, none]
  have some : settled.state.bufferedRequest.isSome = true := isSome_iff_ne_none.mpr none
  simp only [notYet, some, Bool.not_false, Bool.true_and, Bool.and_true, Bool.and_eq_true,
    Bool.not_eq_true', beq_iff_eq, not_and_or, Bool.not_eq_false] at guard
  tauto

theorem transition_resume {frame : Frame Obj}
    {rest : List (Frame Obj)} (top : c.stack = frame :: rest)
    (resumed : resume env { c with stack := rest } frame = some c') :
    Transition env c .resume c' := by
  cases frame with
  | user code => cases resumed
  | refuse er => cases resumed; exact .refuse er rest top
  | doWrite => cases resumed; exact .doWrite rest top
  | clearFast => cases resumed; exact .clearFast rest top
  | clearSlow entry =>
    cases resumed
    split
    · rename_i writing
      exact .clearSlow entry rest top (.inl writing)
    rename_i idle
    cases after : (c.heap[entry]?).bind WriteReq.next with
    | none =>
      have stopped : Transition env c _ _ := .clearSlow entry rest top (.inr after)
      rw [after] at stopped
      exact stopped
    | some next =>
      simp only [clearSlowFrom]
      cases found : c.heap[next]? with
      | none => exact .clearDangling entry next rest top after found
      | some node =>
        exact .clearNext entry next node rest top after found
          (Bool.not_eq_true _ ▸ idle)
  | onwrite sync finished cb =>
    cases resumed
    cases sync with
    | true => exact .onwriteLater finished cb rest top
    | false => exact .onwriteNow finished cb rest top
  | afterWrite cb => cases resumed; exact .afterWrite cb rest top
  | callbacks ids failed => cases resumed; exact .callbacks ids failed rest top
  | onwriteError => cases resumed; exact .onwriteError rest top
  | finishMaybe =>
    cases resumed
    simp only [Writable.finishMaybe]
    split
    · rename_i need
      split
      · rename_i none
        exact .finishes rest top need none
      · exact .awaits rest top need
    · exact .notYet rest top
  | finish => cases resumed; exact .finish rest top
  | endUncork cb =>
    cases resumed
    simp only [Writable.endUncork]
    split
    · rename_i corked
      have corked' : c.state.corked ≠ 0 := by simpa using corked
      exact transition_flush (Opened.end_ cb rest top corked')
    · exact .endUncork cb rest top
  | endFinal cb =>
    cases resumed
    simp only [Writable.endFinal]
    split
    · rename_i guard
      simp only [Bool.and_eq_true, Bool.not_eq_true'] at guard
      exact .endFinal cb rest top guard.1 guard.2
    · exact .endAgain cb rest top
  | endWritable cb => cases resumed; exact .endWritable cb rest top

/-- **What a step does**, read off `step` once for all the invariants -/
theorem transition_of_step (stepped : step env c a = some c') : Transition env c a c' := by
  cases a with
  | write chunk encoding =>
    simp only [step, ite_none_right_eq_some, Option.some.injEq] at stepped
    obtain ⟨turn, rfl⟩ := stepped
    exact .written turn (.write chunk encoding) rfl (written env c chunk encoding)
  | cork =>
    simp only [step, ite_none_right_eq_some, Option.some.injEq] at stepped
    obtain ⟨turn, rfl⟩ := stepped
    exact .cork turn
  | uncork =>
    simp only [step, ite_none_right_eq_some, Option.some.injEq] at stepped
    obtain ⟨turn, rfl⟩ := stepped
    simp only [uncork]
    split
    · rename_i corked
      exact transition_flush (.uncork turn (by simpa using corked))
    · exact .uncorked
  | end_ chunk encoding cb =>
    simp only [step, ite_none_right_eq_some, Option.some.injEq] at stepped
    obtain ⟨turn, rfl⟩ := stepped
    simp only [end_]
    split
    · exact .endCalled chunk encoding cb turn
    rename_i present
    exact .written turn (.end_ chunk encoding cb) (by simp [Action.chunk?, present])
      (written env _ chunk encoding)
  | complete index failed =>
    simp only [step, ite_none_right_eq_some] at stepped
    obtain ⟨turn, stepped⟩ := stepped
    split at stepped
    · rename_i handover cb found kept
      cases stepped
      cases failed with
      | true => exact .failed index handover cb turn found kept
      | false => exact transition_onwrite turn found kept
    · cases stepped
  | ret =>
    simp only [step] at stepped
    split at stepped
    · rename_i code rest top
      cases stepped
      exact .returned code rest top
    · cases stepped
  | tick =>
    simp only [step] at stepped
    split at stepped
    · rename_i tick rest empty first
      cases stepped
      exact .ticked tick rest empty first
    · cases stepped
  | resume =>
    simp only [step] at stepped
    split at stepped
    · rename_i frame rest top
      exact transition_resume top stepped
    · cases stepped

end IoJs.Stream.Writable
