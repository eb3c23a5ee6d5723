import IoJs.Stream.Writable.Transition

/-!
# A callback on the side

A refused write leaves two things behind: its error in the trace, and its callback among the ticks.
No function of the stream looks at either of them. So whatever the stream does, it does with them
on the side, too (`Aside.step`), but that the callback has its turn in between
(`Aside.pass`).
-/

namespace IoJs.Stream.Writable

open List Option

variable {Obj : Type}

/-- How often `'finish'` is emitted -/
def finishes (trace : List (Event Obj)) : Nat :=
  (trace.filter fun
    | .emitted .finish => true
    | _ => false).length

theorem finishes_append (trace trace' : List (Event Obj)) :
    finishes (trace ++ trace') = finishes trace + finishes trace' := by
  rw [finishes, filter_append, length_append, finishes, finishes]

/-- The ticks of a stream, and those with a refused callback on the side -/
inductive Among : List Tick → List Tick → Prop where
  | gone (ticks : List Tick) : Among ticks ticks
  | waits (er : StreamError) (before after : List Tick) :
      Among (before ++ after) (before ++ .refused er :: after)

theorem Among.snoc {ticks ticks' : List Tick} (among : Among ticks ticks') (tick : Tick) :
    Among (ticks ++ [tick]) (ticks' ++ [tick]) := by
  cases among with
  | gone => exact .gone _
  | waits er before after =>
    rw [append_assoc, append_assoc]
    exact .waits er before (after ++ [tick])

theorem Among.of_cons {tick : Tick} {rest ticks' : List Tick}
    (among : Among (tick :: rest) ticks') :
    (∃ rest', ticks' = tick :: rest' ∧ Among rest rest') ∨
      ∃ er, ticks' = .refused er :: tick :: rest := by
  generalize split : tick :: rest = ticks at among
  cases among with
  | gone =>
    subst split
    exact .inl ⟨rest, rfl, .gone rest⟩
  | waits er before after =>
    cases before with
    | nil =>
      right
      subst split
      exact ⟨er, rfl⟩
    | cons first before =>
      left
      obtain ⟨rfl, rfl⟩ := List.cons.inj split
      exact ⟨before ++ .refused er :: after, rfl, .waits er before after⟩

/-- The same stream with a refused callback on the side -/
structure Aside (c d : Config Obj) : Prop where
  state : d.state = c.state
  heap : d.heap = c.heap
  stack : d.stack = c.stack
  outstanding : d.outstanding = c.outstanding
  onceFinish : d.onceFinish = c.onceFinish
  ticks : Among c.ticks d.ticks
  accepted : accepted d.trace = accepted c.trace
  finishes : finishes d.trace = finishes c.trace

namespace Aside

variable {c d : Config Obj} {env : Environment}

/-! ## Parts of a configuration -/

section

variable (aside : Aside c d)
include aside

theorem set (f : WritableState → WritableState) : Aside (c.set f) (d.set f) :=
  { aside with state := congrArg f aside.state }

theorem push (frame : Frame Obj) : Aside (c.push frame) (d.push frame) :=
  { aside with stack := congrArg (frame :: ·) aside.stack }

theorem nextTick (tick : Tick) : Aside (c.nextTick tick) (d.nextTick tick) :=
  { aside with ticks := aside.ticks.snoc tick }

theorem log (event : Event Obj) : Aside (c.log event) (d.log event) :=
  { aside with
    accepted := by
      rw [Config.log_trace, Config.log_trace, accepted_append, accepted_append, aside.accepted]
    finishes := by
      rw [Config.log_trace, Config.log_trace, finishes_append, finishes_append, aside.finishes] }

theorem emit (event : Emission) : Aside (c.emit event) (d.emit event) :=
  (aside.log (.emitted event)).push (.user (.listeners event))

end

theorem ite {p : Prop} [Decidable p] {c' d' : Config Obj} (yes : Aside c d) (no : Aside c' d') :
    Aside (if p then c else c') (if p then d else d') := by
  split
  · exact yes
  · exact no

section

variable (aside : Aside c d)
include aside

theorem withStack (stack : List (Frame Obj)) :
    Aside { c with stack := stack } { d with stack := stack } :=
  { aside with stack := rfl }

theorem withOutstanding (outstanding : List (Handover Obj)) :
    Aside { c with outstanding := outstanding } { d with outstanding := outstanding } :=
  { aside with outstanding := rfl }

theorem withOnceFinish (labels : List Nat) :
    Aside { c with onceFinish := labels } { d with onceFinish := labels } :=
  { aside with onceFinish := rfl }

/-! ## Handing over -/

theorem doWrite (handover : Handover Obj) (len : Int) (cb : Callback) :
    Aside (doWrite c handover len cb) (doWrite d handover len cb) := by
  simp only [Writable.doWrite, Config.set_outstanding, aside.outstanding]
  exact ((((aside.set _).withOutstanding _).log _).push _).push _

theorem doWriteOne (request : Request Obj) :
    Aside (doWriteOne c request) (doWriteOne d request) := by
  rw [Writable.doWriteOne, Writable.doWriteOne, aside.state]
  exact aside.doWrite _ _ _

theorem clearSlowEnd (entry : Option Nat) : Aside (clearSlowEnd c entry) (clearSlowEnd d entry) :=
  aside.set _

theorem clearSlowFrom (entry : Option Nat) :
    Aside (clearSlowFrom c entry) (clearSlowFrom d entry) := by
  cases entry with
  | none => exact aside.clearSlowEnd none
  | some e =>
    simp only [Writable.clearSlowFrom, aside.heap]
    split
    · exact aside.clearSlowEnd none
    · exact (aside.push _).doWriteOne _

theorem clearFast : Aside (clearFast c) (clearFast d) := by
  have buffer : d.getBuffer = c.getBuffer := by
    rw [Config.getBuffer, Config.getBuffer, aside.heap, aside.state]
  simp only [Writable.clearFast, buffer, aside.state]
  exact ((aside.set _).push _).doWrite _ _ _

theorem clearBuffer : Aside (clearBuffer env c) (clearBuffer env d) := by
  simp only [Writable.clearBuffer, Config.set_state, Config.set_heap, aside.state, aside.heap]
  exact .ite (aside.set _).clearFast ((aside.set _).clearSlowFrom _)

/-! ## Writing -/

theorem refuse (er : StreamError) : Aside (refuse c er) (refuse d er) := (aside.push _).emit _

theorem bufferRequest (request : Request Obj) :
    Aside (bufferRequest c request) (bufferRequest d request) := by
  simp only [Writable.bufferRequest, aside.state, aside.heap]
  have linked (heap : List (WriteReq Obj)) :
      Aside { c with heap := heap } { d with state := c.state, heap := heap } :=
    { aside with state := rfl, heap := rfl }
  exact (linked _).set _

theorem newRequest (chunk : Chunk Obj) (encoding : String) :
    newRequest env d chunk encoding = newRequest env c chunk encoding := by
  simp only [Writable.newRequest, aside.state, aside.accepted]

theorem accept (request : Request Obj) (len : Nat) :
    Aside (accept c request len) (accept d request len) := by
  simp only [Writable.accept, Config.set_state, aside.state]
  exact ((aside.set _).set _).log _

theorem writeOrBuffer (chunk : Chunk Obj) (encoding : String) :
    Aside (writeOrBuffer env c chunk encoding) (writeOrBuffer env d chunk encoding) := by
  simp only [Writable.writeOrBuffer, aside.newRequest, aside.state]
  split
  · exact aside.log .threw
  have accepted := aside.accept (Writable.newRequest env c chunk encoding) (by assumption)
  rw [accepted.state]
  exact .ite (accepted.bufferRequest _) (accepted.doWriteOne _)

theorem uncork : Aside (uncork env c) (uncork env d) := by
  simp only [Writable.uncork, Config.set_state, aside.state]
  exact .ite (.ite (aside.set _).clearBuffer (aside.set _)) aside

/-! ## Finishing -/

theorem prefinish : Aside (prefinish c) (prefinish d) := by
  simp only [Writable.prefinish, aside.state]
  exact .ite aside ((aside.set _).emit _)

theorem finishMaybe : Aside (finishMaybe c) (finishMaybe d) := by
  simp only [Writable.finishMaybe, aside.state]
  exact .ite (.ite (aside.push _).prefinish aside.prefinish) aside

theorem finish : Aside (finish c) (finish d) := ((aside.withOnceFinish []).set _).emit _

theorem endWritable (cb : Option Nat) : Aside (endWritable c cb) (endWritable d cb) :=
  ((aside.set _).push _).push _

theorem endWritableEnd (cb : Option Nat) : Aside (endWritableEnd c cb) (endWritableEnd d cb) := by
  cases cb with
  | none =>
    simp only [Writable.endWritableEnd]
    exact aside.set _
  | some =>
    have finished : d.state.finished = c.state.finished :=
      congrArg WritableState.finished aside.state
    simp only [Writable.endWritableEnd]
    refine Aside.set ?_ _
    rw [finished, aside.onceFinish]
    exact .ite (aside.nextTick _) (aside.withOnceFinish _)

theorem endUncork (cb : Option Nat) : Aside (endUncork env c cb) (endUncork env d cb) := by
  simp only [Writable.endUncork, Config.push_state, aside.state]
  exact .ite ((aside.push _).set _).uncork (aside.push _)

theorem endFinal (cb : Option Nat) : Aside (endFinal c cb) (endFinal d cb) := by
  simp only [Writable.endFinal, aside.state]
  exact .ite (aside.endWritable cb) aside

/-! ## Completing a hand-over -/

theorem callCallback (cb : Callback) (failed : Bool) :
    Aside (callCallback c cb failed) (callCallback d cb failed) := by
  cases cb with
  | write id => exact (aside.log _).push _
  | writev ids => exact aside.push _

theorem callNext (ids : List Nat) (failed : Bool) :
    Aside (callNext c ids failed) (callNext d ids failed) := by
  cases ids with
  | nil => exact aside
  | cons =>
    simp only [Writable.callNext]
    exact ((aside.set _).push _).callCallback _ _

theorem afterWrite (finished : Bool) (cb : Callback) :
    Aside (afterWrite c finished cb) (afterWrite d finished cb) := by
  simp only [Writable.afterWrite, Config.push_state, aside.state]
  exact .ite (((aside.push _).set _).emit _) (aside.push _)

theorem afterWriteEnd (cb : Callback) : Aside (afterWriteEnd c cb) (afterWriteEnd d cb) :=
  ((aside.set _).push _).callCallback cb false

theorem onwriteErrorEnd : Aside (onwriteErrorEnd c) (onwriteErrorEnd d) := (aside.set _).emit _

theorem onwriteError (sync : Bool) (cb : Callback) :
    Aside (onwriteError c sync cb) (onwriteError d sync cb) := by
  cases sync with
  | true => exact (aside.nextTick _).onwriteErrorEnd
  | false => exact ((aside.set _).push _).callCallback cb true

theorem onwriteEnd (sync finished : Bool) (cb : Callback) :
    Aside (onwriteEnd c sync finished cb) (onwriteEnd d sync finished cb) := by
  cases sync with
  | true => exact aside.nextTick _
  | false => exact aside.afterWrite finished cb

theorem settle (index : Nat) (handover : Handover Obj) (failed : Bool) :
    Aside (settle c index handover failed) (settle d index handover failed) := by
  simp only [Writable.settle, aside.outstanding]
  exact ((aside.withOutstanding _).set _).log _

theorem onwriteSuccess (sync : Bool) (cb : Callback) :
    Aside (onwriteSuccess env c sync cb) (onwriteSuccess env d sync cb) := by
  simp only [Writable.onwriteSuccess, Config.push_state, aside.state]
  exact .ite (aside.push _).clearBuffer (aside.push _)

theorem onwrite (index : Nat) (handover : Handover Obj) (cb : Callback) (failed : Bool) :
    Aside (onwrite env c index handover cb failed) (onwrite env d index handover cb failed) := by
  have settled := aside.settle index handover failed
  cases failed with
  | true =>
    simp only [Writable.onwrite, aside.state]
    exact settled.onwriteError _ _
  | false =>
    simp only [Writable.onwrite, aside.state]
    exact settled.onwriteSuccess _ _

/-! ## The machine -/

theorem resume (frame : Frame Obj) {c' : Config Obj} (resumed : resume env c frame = some c') :
    ∃ d', Writable.resume env d frame = some d' ∧ Aside c' d' := by
  cases frame with
  | user code => cases resumed
  | refuse er => exact ⟨_, rfl, some.inj resumed ▸ aside.nextTick _⟩
  | doWrite | clearFast => exact ⟨_, rfl, some.inj resumed ▸ aside.set _⟩
  | clearSlow =>
    refine ⟨_, rfl, some.inj resumed ▸ ?_⟩
    rw [aside.state, aside.heap]
    exact .ite (aside.clearSlowEnd _) (aside.clearSlowFrom _)
  | onwrite sync finished cb => exact ⟨_, rfl, some.inj resumed ▸ aside.onwriteEnd sync finished cb⟩
  | afterWrite cb => exact ⟨_, rfl, some.inj resumed ▸ aside.afterWriteEnd cb⟩
  | callbacks ids failed => exact ⟨_, rfl, some.inj resumed ▸ aside.callNext ids failed⟩
  | onwriteError => exact ⟨_, rfl, some.inj resumed ▸ aside.onwriteErrorEnd⟩
  | finishMaybe => exact ⟨_, rfl, some.inj resumed ▸ aside.finishMaybe⟩
  | finish => exact ⟨_, rfl, some.inj resumed ▸ aside.finish⟩
  | endUncork cb => exact ⟨_, rfl, some.inj resumed ▸ aside.endUncork cb⟩
  | endFinal cb => exact ⟨_, rfl, some.inj resumed ▸ aside.endFinal cb⟩
  | endWritable cb => exact ⟨_, rfl, some.inj resumed ▸ aside.endWritableEnd cb⟩

theorem runTick (tick : Tick) : Aside (runTick c tick) (runTick d tick) := by
  cases tick with
  | afterWrite finished cb => exact aside.afterWrite finished cb
  | onwriteError cb => exact (aside.set _).callCallback cb true
  | refused er => exact aside.push _
  | endCallback => exact aside.push _

theorem userTurn : d.userTurn = c.userTurn := by rw [Config.userTurn, Config.userTurn, aside.stack]

end

end Aside

end IoJs.Stream.Writable
