import IoJs.Stream.Writable.Effect

/-!
# Callbacks and `pendingcb`

Where the callbacks of accepted writes are between the hand-over and their call:
in `writecb` while the hand-over is outstanding, then in a frame or in a tick.
And what `pendingcb` counts: the accepted writes whose callback has not been
called, and one unit for each closure that `clearBuffer` made for `_writev` and
whose completion has not been processed.
-/

namespace IoJs.Stream.Writable

open IoJs.Library List Option

variable {Obj : Type} {c : Config Obj}

/-! ## Where callbacks are kept -/

/-- The writes whose callbacks a frame still has to call. -/
def Frame.owed : Frame Obj → List Nat
  | .onwrite _ _ cb => cb.ids
  | .afterWrite cb => cb.ids
  | .callbacks ids _ => ids
  | _ => []

/-- The `_writev` closures whose completion a frame still has to process. -/
def Frame.units : Frame Obj → Nat
  | .onwrite _ _ cb => cb.units
  | .afterWrite cb => cb.units
  | _ => 0

/-- The writes whose callbacks a tick still has to call. -/
def Tick.owed : Tick → List Nat
  | .afterWrite _ cb => cb.ids
  | .onwriteError cb => cb.ids
  | _ => []

/-- The `_writev` closures whose completion a tick still has to process. -/
def Tick.units : Tick → Nat
  | .afterWrite _ cb => cb.units
  | .onwriteError cb => cb.units
  | _ => 0

namespace Config

/-- The writes whose callbacks are due: their hand-over has completed, and the
callback is in a frame or in a tick. -/
def due (c : Config Obj) : List Nat := c.stack.flatMap Frame.owed ++ c.ticks.flatMap Tick.owed

/-- The writes whose callbacks are kept anywhere. -/
def owed (c : Config Obj) : List Nat := c.due ++ c.state.writecb.toList.flatMap Callback.ids

/-- The `_writev` hand-overs whose completion has not been processed. -/
def units (c : Config Obj) : Nat :=
  (c.stack.map Frame.units).sum + (c.ticks.map Tick.units).sum +
    (c.state.writecb.toList.map Callback.units).sum

/-- Callbacks called or kept, less writes handed over. -/
def balance (c : Config Obj) (id : Nat) : Int :=
  (called c.trace).count id + c.owed.count id - ((handed c.trace).map Request.id).count id

/-- `pendingcb` less what it should be; calls of `write()` that threw are in it too. -/
def surplus (c : Config Obj) : Int :=
  c.state.pendingcb - ((accepted c.trace).length - (called c.trace).length + c.units +
    thrown c.trace)

/-- No hand-over is outstanding, and the state says so. -/
def Settled (c : Config Obj) : Prop :=
  c.outstanding = [] ∧ c.state.writing = false ∧ c.state.writecb = none

/-- One hand-over is outstanding, and the state says so. -/
def Pending (c : Config Obj) (handover : Handover Obj) (cb : Callback) : Prop :=
  c.outstanding = [handover] ∧ c.state.writing = true ∧ c.state.writecb = some cb ∧
    cb.ids = handover.requests.map Request.id ∧ cb.units = if handover.writev then 1 else 0

end Config

open Config (due owed units log_state log_stack log_ticks log_trace push_state push_stack
  push_ticks push_trace set_stack set_state set_ticks set_trace)

/-- How a function of the stream changes the books: the hand-over stays, the
callbacks `ids` are put somewhere or called, and `pendingcb` rises by `amount`
over what it should be. -/
structure Shift (c c' : Config Obj) (ids : List Nat) (amount : Int) : Prop where
  outstanding : c'.outstanding = c.outstanding
  writing : c'.state.writing = c.state.writing
  writecb : c'.state.writecb = c.state.writecb
  handed : handed c'.trace = handed c.trace
  completions : completions c'.trace = completions c.trace
  balance : ∀ id, c'.balance id = c.balance id + ids.count id
  surplus : c'.surplus = c.surplus + amount

namespace Shift

theorem refl (c : Config Obj) : Shift c c [] 0 :=
  ⟨rfl, rfl, rfl, rfl, rfl, fun _ => by simp, by simp⟩

theorem trans {c c' c'' : Config Obj} {ids ids' : List Nat} {amount amount' : Int}
    (first : Shift c c' ids amount) (second : Shift c' c'' ids' amount') :
    Shift c c'' (ids ++ ids') (amount + amount') where
  outstanding := second.outstanding.trans first.outstanding
  writing := second.writing.trans first.writing
  writecb := second.writecb.trans first.writecb
  handed := second.handed.trans first.handed
  completions := second.completions.trans first.completions
  balance id := by
    rw [second.balance, first.balance, count_append]
    omega
  surplus := by
    rw [second.surplus, first.surplus]
    omega

variable {f : WritableState → WritableState}

section

variable (c : Config Obj)

theorem set (writing : (f c.state).writing = c.state.writing)
    (writecb : (f c.state).writecb = c.state.writecb) :
    Shift c (c.set f) [] ((f c.state).pendingcb - c.state.pendingcb) where
  outstanding := rfl
  writing := writing
  writecb := writecb
  handed := rfl
  completions := rfl
  balance id := by simp [Config.balance, owed, due, writecb]
  surplus := by
    simp only [Config.surplus, units, set_state, set_trace, set_stack,
      set_ticks, writecb]
    omega

theorem charge : Shift c c.charge [] 1 := by
  have charged := set c (f := fun s => { s with pendingcb := s.pendingcb + 1 }) rfl rfl
  rwa [add_sub_cancel_left] at charged

theorem pay : Shift c c.pay [] (-1) := by
  have paid := set c (f := fun s => { s with pendingcb := s.pendingcb - 1 }) rfl rfl
  rwa [show c.state.pendingcb - 1 - c.state.pendingcb = -1 by omega] at paid

theorem push (frame : Frame Obj) : Shift c (c.push frame) frame.owed (-frame.units) where
  outstanding := rfl
  writing := rfl
  writecb := rfl
  handed := rfl
  completions := rfl
  balance id := by
    simp only [Config.balance, owed, due, push_state, push_trace,
      push_stack, push_ticks, flatMap_cons, count_append]
    omega
  surplus := by
    simp only [Config.surplus, units, push_state, push_trace,
      push_stack, push_ticks, map_cons, sum_cons]
    omega

theorem nextTick (tick : Tick) : Shift c (c.nextTick tick) tick.owed (-tick.units) where
  outstanding := rfl
  writing := rfl
  writecb := rfl
  handed := rfl
  completions := rfl
  balance id := by
    simp only [Config.balance, owed, due, Config.nextTick_state,
      Config.nextTick_trace, Config.nextTick_stack, Config.nextTick_ticks, flatMap_append,
      flatMap_cons, flatMap_nil, append_nil, count_append]
    omega
  surplus := by
    simp only [Config.surplus, units, Config.nextTick_state, Config.nextTick_trace,
      Config.nextTick_stack, Config.nextTick_ticks, map_append, map_cons, map_nil,
      sum_append, sum_cons, sum_nil]
    omega

theorem emit (event : Emission) : Shift c (c.emit event) [] 0 where
  outstanding := rfl
  writing := rfl
  writecb := rfl
  handed := by simp
  completions := by simp
  balance id := by simp [Config.balance, owed, due, Frame.owed]
  surplus := by simp [Config.surplus, units, Frame.units]

theorem call (id : Nat) (failed : Bool) : Shift c (c.log (.called id failed)) [id] 1 where
  outstanding := rfl
  writing := rfl
  writecb := rfl
  handed := by simp
  completions := by simp
  balance i := by
    simp only [Config.balance, owed, due, log_state, log_trace,
      log_stack, log_ticks, called_append_singleton, handed_append_singleton,
      append_nil, count_append]
    omega
  surplus := by
    simp only [Config.surplus, units, log_state, log_trace,
      log_stack, log_ticks, called_append_singleton, accepted_append_singleton,
      thrown_append_singleton, append_nil, length_append, length_singleton,
      Nat.add_zero]
    omega

theorem refuse (er : StreamError) : Shift c (refuse c er) [] 0 :=
  (push c (.refuse er)).trans (emit _ _)

theorem callCallback (cb : Callback) (failed : Bool) :
    Shift c (callCallback c cb failed) cb.ids (1 - cb.units) := by
  cases cb with
  | write id => exact (call c id failed).trans (push _ (.user (.callback id)))
  | writev ids => exact push c (.callbacks ids failed)

theorem payAndCall (cb : Callback) (failed : Bool) :
    Shift c (Writable.callCallback c.pay cb failed) cb.ids (-cb.units) := by
  have total := (pay c).trans (callCallback _ cb failed)
  rwa [nil_append, show (-1 : Int) + (1 - cb.units) = -cb.units by omega] at total

theorem payPushAndCall (cb : Callback) (failed : Bool) (frame : Frame Obj)
    (owes : frame.owed = []) (free : frame.units = 0) :
    Shift c (Writable.callCallback (c.pay.push frame) cb failed) cb.ids (-cb.units) := by
  have total := ((pay c).trans (push _ frame)).trans (callCallback _ cb failed)
  rwa [owes, free, nil_append, nil_append,
    show (-1 : Int) + -((0 : Nat) : Int) + (1 - cb.units) = -cb.units by omega] at total

theorem callNext (ids : List Nat) (failed : Bool) : Shift c (callNext c ids failed) ids 0 := by
  cases ids with
  | nil => exact refl c
  | cons id rest =>
    have total := ((pay c).trans (push _ (.callbacks rest failed))).trans
      (callCallback _ (.write id) failed)
    refine ⟨total.outstanding, total.writing, total.writecb, total.handed, total.completions,
      fun i => ?_, total.surplus⟩
    refine (total.balance i).trans ?_
    simp only [Frame.owed, Callback.ids, nil_append, count_append, count_cons, count_nil]
    omega

theorem afterWrite (finished : Bool) (cb : Callback) :
    Shift c (afterWrite c finished cb) cb.ids (-cb.units) := by
  have pushed := push c (.afterWrite cb)
  simp only [Writable.afterWrite]
  split
  · have drained := Shift.set (c.push (.afterWrite cb))
      (f := fun s => { s with needDrain := false }) rfl rfl
    have total := (pushed.trans drained).trans (emit _ .drain)
    simpa [Frame.owed, Frame.units] using total
  · exact pushed

theorem afterWriteEnd (cb : Callback) : Shift c (afterWriteEnd c cb) cb.ids (-cb.units) :=
  payPushAndCall c cb false .finishMaybe rfl rfl

theorem flag (writing : (f c.state).writing = c.state.writing)
    (writecb : (f c.state).writecb = c.state.writecb)
    (pendingcb : (f c.state).pendingcb = c.state.pendingcb) : Shift c (c.set f) [] 0 := by
  have assigned := set c writing writecb
  rwa [pendingcb, sub_self] at assigned

theorem onceFinish (labels : List Nat) : Shift c { c with onceFinish := labels } [] 0 :=
  ⟨rfl, rfl, rfl, rfl, rfl, fun _ => by simp [Config.balance, owed, due],
    by simp [Config.surplus, units]⟩

theorem onwriteErrorEnd : Shift c (onwriteErrorEnd c) [] 0 :=
  (flag c rfl rfl rfl).trans (emit _ (.error .reported))

theorem onwriteError (sync : Bool) (cb : Callback) :
    Shift c (onwriteError c sync cb) cb.ids (-cb.units) := by
  cases sync with
  | false => exact payPushAndCall c cb true .onwriteError rfl rfl
  | true =>
    have total := (nextTick c (.onwriteError cb)).trans (onwriteErrorEnd _)
    rw [append_nil, Int.add_zero] at total
    exact total

theorem prefinish : Shift c (prefinish c) [] 0 := by
  simp only [Writable.prefinish]
  split
  · exact refl c
  · exact (flag c rfl rfl rfl).trans (emit _ .prefinish)

theorem finish : Shift c (finish c) [] 0 :=
  ((onceFinish c []).trans (flag _ rfl rfl rfl)).trans (emit _ .finish)

theorem endWritable (cb : Option Nat) : Shift c (endWritable c cb) [] 0 :=
  ((flag c rfl rfl rfl).trans (push _ (.endWritable cb))).trans (push _ .finishMaybe)

theorem endWritableEnd (cb : Option Nat) : Shift c (endWritableEnd c cb) [] 0 := by
  cases cb with
  | none => exact flag c (f := fun s => { s with ended := true }) rfl rfl rfl
  | some label =>
    simp only [Writable.endWritableEnd]
    split
    · exact (nextTick c (.endCallback label)).trans (flag _ rfl rfl rfl)
    · exact (onceFinish c _).trans (flag _ rfl rfl rfl)

theorem accept (request : Request Obj) (len : Nat) : Shift c (accept c request len) [] (-1) where
  outstanding := rfl
  writing := rfl
  writecb := rfl
  handed := by simp [Writable.accept]
  completions := by simp [Writable.accept]
  balance id := by simp [Config.balance, owed, due, Writable.accept]
  surplus := by
    simp only [Config.surplus, units, Writable.accept, log_state, set_state,
      log_trace, set_trace, log_stack, set_stack, log_ticks,
      set_ticks, called_append_singleton, accepted_append_singleton,
      thrown_append_singleton, append_nil, length_append, length_singleton,
      Nat.add_zero]
    omega

theorem threw : Shift c (c.log .threw) [] (-1) where
  outstanding := rfl
  writing := rfl
  writecb := rfl
  handed := by simp
  completions := by simp
  balance id := by simp [Config.balance, owed, due]
  surplus := by
    simp only [Config.surplus, units, log_state, log_trace, log_stack,
      log_ticks, called_append_singleton, accepted_append_singleton,
      thrown_append_singleton, append_nil]
    omega

theorem bufferRequest (request : Request Obj) : Shift c (bufferRequest c request) [] 0 where
  outstanding := rfl
  writing := rfl
  writecb := rfl
  handed := rfl
  completions := rfl
  balance id := by simp [Config.balance, owed, due, Writable.bufferRequest]
  surplus := by simp [Config.surplus, units, Writable.bufferRequest]

theorem clearSlowEnd (entry : Option Nat) : Shift c (clearSlowEnd c entry) [] 0 := by
  exact flag c rfl rfl rfl

end

end Shift

/-! ## Open and closed books -/

/-- The books with an entry that is still open: the callbacks `ids` are nowhere,
and `pendingcb` is `amount` over what it should be. -/
structure Open (c : Config Obj) (ids : List Nat) (amount : Int) : Prop where
  single : c.Settled ∨ ∃ handover cb, c.Pending handover cb
  delivered : handed c.trace =
    ((completions c.trace).map Prod.fst ++ c.outstanding).flatMap Handover.requests
  balance : ∀ id, c.balance id + ids.count id = 0
  surplus : c.surplus = amount

/-- The books are closed. -/
abbrev Books (c : Config Obj) : Prop := Open c [] 0

namespace Open

variable {c c' : Config Obj} {ids : List Nat} {amount : Int} {amount' : Int}

theorem single_shift {ids' : List Nat} (shift : Shift c c' ids' amount')
    (single : c.Settled ∨ ∃ handover cb, c.Pending handover cb) :
    c'.Settled ∨ ∃ handover cb, c'.Pending handover cb := by
  rcases single with settled | ⟨handover, cb, pending⟩
  · left
    rwa [Config.Settled, shift.outstanding, shift.writing, shift.writecb]
  right
  refine ⟨handover, cb, ?_⟩
  rwa [Config.Pending, shift.outstanding, shift.writing, shift.writecb]

section

variable (entry : Open c ids amount)
include entry

theorem close (shift : Shift c c' ids (-amount)) : Books c' where
  single := single_shift shift entry.single
  delivered := by
    rw [shift.handed, shift.completions, shift.outstanding]
    exact entry.delivered
  balance id := by
    have before := entry.balance id
    rw [shift.balance]
    simpa using before
  surplus := by
    rw [shift.surplus, entry.surplus]
    omega

theorem raise (shift : Shift c c' [] amount') : Open c' ids (amount + amount') where
  single := single_shift shift entry.single
  delivered := by
    rw [shift.handed, shift.completions, shift.outstanding]
    exact entry.delivered
  balance id := by
    rw [shift.balance]
    simpa using entry.balance id
  surplus := by rw [shift.surplus, entry.surplus]

theorem keep (shift : Shift c c' [] 0) : Open c' ids amount := by simpa using entry.raise shift

end

theorem of_frame {frame : Frame Obj} {rest : List (Frame Obj)} (books : Books c)
    (top : c.stack = frame :: rest) : Open { c with stack := rest } frame.owed frame.units := by
  have pushed := Shift.push { c with stack := rest } frame
  have same : ({ c with stack := rest } : Config Obj).push frame = c := by rw [Config.push, ← top]
  rw [same] at pushed
  refine ⟨books.single, books.delivered, fun id => ?_, ?_⟩
  · rw [← pushed.balance]
    simpa using books.balance id
  have before := books.surplus
  rw [pushed.surplus] at before
  omega

theorem of_tick {tick : Tick} {rest : List Tick} (books : Books c)
    (first : c.ticks = tick :: rest) : Open { c with ticks := rest } tick.owed tick.units where
  single := books.single
  delivered := books.delivered
  balance id := by
    have before := books.balance id
    simp only [Config.balance, owed, due, first, flatMap_cons,
      count_append] at before ⊢
    simp only [count_nil] at before
    omega
  surplus := by
    have before := books.surplus
    simp only [Config.surplus, units, first, map_cons, sum_cons] at before ⊢
    omega

theorem doWrite (entry : Open c ids amount) (idle : c.state.writing = false)
    (handover : Handover Obj) (cb : Callback) (len : Int)
    (same : cb.ids = handover.requests.map Request.id)
    (unit : cb.units = if handover.writev then 1 else 0) :
    Open (doWrite c handover len cb) ids (amount - cb.units) := by
  have settled : c.Settled := by
    rcases entry.single with settled | ⟨handover', cb', -, writing, -⟩
    · exact settled
    · rw [idle] at writing; cases writing
  obtain ⟨none, -, nothing⟩ := settled
  refine ⟨.inr ⟨handover, cb, by simp [Writable.doWrite, none], rfl, rfl, same, unit⟩, ?_, ?_, ?_⟩
  · simp [Writable.doWrite, entry.delivered, none]
  · intro id
    have before := entry.balance id
    simp only [Config.balance, owed, due, Writable.doWrite, push_state,
      log_state, set_state, push_stack, log_stack, set_stack,
      push_ticks, log_ticks, set_ticks, push_trace, log_trace,
      set_trace, called_append_singleton, handed_append_singleton, nothing,
      flatMap_cons, Frame.owed, toList_some, toList_none, flatMap_nil,
      append_nil, nil_append, map_append, count_append, same] at before ⊢
    omega
  have before := entry.surplus
  simp only [Config.surplus, units, Writable.doWrite, push_state,
    log_state, set_state, push_stack, log_stack, set_stack,
    push_ticks, log_ticks, set_ticks, push_trace, log_trace,
    set_trace, called_append_singleton, accepted_append_singleton,
    thrown_append_singleton, nothing, map_cons, map_nil, sum_cons, sum_nil,
    Frame.units, toList_some, toList_none, append_nil, Nat.add_zero,
    Nat.zero_add] at before ⊢
  omega

theorem doWriteOne (entry : Open c ids amount) (idle : c.state.writing = false)
    (request : Request Obj) : Open (doWriteOne c request) ids amount := by
  have handed := entry.doWrite idle ⟨false, [request]⟩ (.write request.id)
    ((chunkLength c.state request.chunk).getD 0) rfl rfl
  rwa [Callback.units, Nat.cast_zero, sub_zero] at handed

theorem settle (books : Books c) {index : Nat} {handover : Handover Obj} {cb : Callback}
    (found : c.outstanding[index]? = some handover) (kept : c.state.writecb = some cb)
    (failed : Bool) : Open (settle c index handover failed) cb.ids cb.units := by
  rcases books.single with ⟨-, -, nothing⟩ | ⟨handover', cb', one, -, kept', -, -⟩
  · rw [nothing] at kept; cases kept
  rw [one, List.getElem?_singleton] at found
  split at found
  · rename_i first
    subst first
    cases found
    refine ⟨.inl ⟨by simp [Writable.settle, one], rfl, rfl⟩, ?_, fun id => ?_, ?_⟩
    · simp [Writable.settle, books.delivered, one]
    · have before := books.balance id
      simp only [Config.balance, owed, due, Writable.settle, onwriteStateUpdate,
        log_state, set_state, log_stack, set_stack, log_ticks,
        set_ticks, log_trace, set_trace, called_append_singleton,
        handed_append_singleton, kept, toList_some, toList_none, flatMap_cons,
        flatMap_nil, append_nil, count_append, count_nil] at before ⊢
      omega
    have before := books.surplus
    simp only [Config.surplus, units, Writable.settle, onwriteStateUpdate,
      log_state, set_state, log_stack, set_stack, log_ticks,
      set_ticks, log_trace, set_trace, called_append_singleton,
      accepted_append_singleton, thrown_append_singleton, kept, toList_some,
      toList_none, map_cons, map_nil, sum_cons, sum_nil,
      append_nil, Nat.add_zero] at before ⊢
    omega
  · cases found

end Open

/-! ## The books of a run -/

namespace Books

variable {c c' : Config Obj} {a : Action Obj} {b : Config Obj} {env : Environment}

section

variable (books : Books c)
include books

theorem keep (shift : Shift c c' [] 0) : Books c' := Open.keep books shift

theorem resumed {frame : Frame Obj} {rest : List (Frame Obj)} (top : c.stack = frame :: rest)
    (shift : Shift { c with stack := rest } c' frame.owed (-frame.units)) : Books c' :=
  (Open.of_frame books top).close shift

theorem calls (call : Calls c a b) : Books b := by
  cases call with
  | write => exact books
  | end_ chunk encoding cb => exact books.keep (.push c (.endUncork cb))

theorem accept (request : Request Obj) (len : Nat) : Books (accept c.charge request len) := by
  have charged := Open.raise books (.charge c)
  exact charged.close (.accept c.charge request len)

theorem opened (prepared : Opened c a b) : Books b := by
  cases prepared with
  | uncork => exact books.keep (.flag c rfl rfl rfl)
  | end_ cb rest top =>
    exact books.resumed top ((Shift.push _ (.endFinal cb)).trans (.flag _ rfl rfl rfl))
  | onwrite index handover cb turn found kept =>
    exact (Open.settle books found kept false).close (.push _ (.onwrite _ _ cb))

theorem clearFast (idle : c.state.writing = false) : Books (clearFast c.process) := by
  have processed : Books c.process := books.keep (.flag c rfl rfl rfl)
  have charged := (Open.raise processed (.charge _)).keep (.flag _ (f := fun s =>
    { s with lastBufferedRequest := none }) rfl rfl rfl)
  have pushed := charged.keep (.push _ .clearFast)
  have handed := pushed.doWrite idle ⟨true, c.process.getBuffer.map WriteReq.request⟩
    (.writev ((c.process.getBuffer.map WriteReq.request).map Request.id))
    c.process.state.length rfl rfl
  exact handed

/-- **Every step keeps the books**, whatever the environment does. -/
theorem step (moved : Transition env c a c') : Books c' := by
  cases moved with
  | written turn calls passes done =>
    have base := books.calls calls
    cases done with
    | refused er => exact base.keep (.refuse _ er)
    | threw =>
      have charged := Open.raise base (.charge _)
      exact charged.close (.threw _)
    | buffered request len =>
      exact (base.accept request len).keep (.bufferRequest _ request)
    | direct request len number measured open_ valid present idle =>
      exact (base.accept request len).doWriteOne idle request
  | endCalled chunk encoding cb turn => exact books.keep (.push c (.endUncork cb))
  | cork turn => exact books.keep (.flag c rfl rfl rfl)
  | uncorked => exact books
  | opened prepared => exact books.opened prepared
  | flushed prepared ready done =>
    have base := books.opened prepared
    have processed : Books _ := base.keep (.flag _ (f := fun s =>
      { s with bufferProcessing := true }) rfl rfl rfl)
    cases done with
    | fast => exact base.clearFast ready.writing
    | slow e node =>
      exact (processed.keep (.push _ (.clearSlow e))).doWriteOne ready.writing node.request
    | dangling => exact processed.keep (.clearSlowEnd _ none)
  | failed index handover cb turn found kept =>
    exact (Open.settle books found kept true).close (.onwriteError _ _ cb)
  | returned code rest top | notYet rest top | endAgain cb rest top =>
    exact books.resumed top (.refl _)
  | ticked tick rest empty first =>
    refine (Open.of_tick books first).close ?_
    cases tick with
    | afterWrite finished cb => exact .afterWrite _ finished cb
    | onwriteError cb => exact .payAndCall _ cb true
    | refused er => exact .push _ (.user (.refused er))
    | endCallback label => exact .push _ (.user (.endCallback label))
  | refuse er rest top => exact books.resumed top (.nextTick _ (.refused er))
  | doWrite rest top | clearFast rest top => exact books.resumed top (.flag _ rfl rfl rfl)
  | clearSlow entry rest top => exact books.resumed top (.clearSlowEnd _ _)
  | clearNext entry next node rest top after found idle =>
    have popped : Books { c with stack := rest } := books.resumed top (.refl _)
    exact (popped.keep (.push _ (.clearSlow next))).doWriteOne idle node.request
  | clearDangling entry next rest top =>
    exact books.resumed top (.clearSlowEnd _ none)
  | onwriteLater finished cb rest top =>
    exact books.resumed top (.nextTick _ (.afterWrite finished cb))
  | onwriteNow finished cb rest top => exact books.resumed top (.afterWrite _ finished cb)
  | afterWrite cb rest top => exact books.resumed top (.afterWriteEnd _ cb)
  | callbacks ids failed rest top => exact books.resumed top (.callNext _ ids failed)
  | onwriteError rest top => exact books.resumed top (.onwriteErrorEnd _)
  | awaits rest top need => exact books.resumed top (.prefinish _)
  | finishes rest top =>
    exact books.resumed top ((Shift.push _ .finish).trans (.prefinish _))
  | finish rest top => exact books.resumed top (.finish _)
  | endUncork cb rest top => exact books.resumed top (.push _ (.endFinal cb))
  | endFinal cb rest top => exact books.resumed top (.endWritable _ cb)
  | endWritable cb rest top => exact books.resumed top (.endWritableEnd _ cb)

end

theorem new (options : Options) : Books (Config.new options : Config Obj) where
  single := .inl ⟨rfl, rfl, rfl⟩
  delivered := rfl
  balance _ := rfl
  surplus := rfl

/-- They are kept in every run. -/
theorem of_run {allowed : Config Obj → Action Obj → Prop} {options : Options}
    (run : Run (Writable.step env) allowed (Config.new options) c) : Books c :=
  run.invariant Books (.new options)
    fun books _ stepped => books.step (transition_of_step stepped)

theorem outstanding_length (books : Books c) : c.outstanding.length ≤ 1 := by
  rcases books.single with ⟨none, -, -⟩ | ⟨handover, cb, one, -⟩
  · simp [none]
  · simp [one]

theorem writing_iff (books : Books c) : c.state.writing = true ↔ c.outstanding ≠ [] := by
  rcases books.single with ⟨none, idle, -⟩ | ⟨handover, cb, one, writing, -⟩
  · simp [none, idle]
  · simp [one, writing]

theorem count_called (books : Books c) (id : Nat) : (called c.trace).count id + c.owed.count id =
    ((handed c.trace).map Request.id).count id := by
  have balance := books.balance id
  simp only [Config.balance, count_nil] at balance
  omega

theorem handed_ids_nodup (inv : QueueInv c) : ((handed c.trace).map Request.id).Nodup := by
  have accepted : ((accepted c.trace).map Request.id).Nodup := inv.numbered ▸ nodup_range
  have counted : (handed c.trace).Subperm (Writable.accepted c.trace) :=
    (sublist_append_left _ _).subperm.trans inv.accounted
  obtain ⟨rearranged, perm, sublist⟩ := counted
  exact (perm.map Request.id).nodup_iff.mp ((sublist.map Request.id).nodup accepted)

theorem called_nodup (books : Books c) (inv : QueueInv c) : (called c.trace).Nodup := by
  refine nodup_iff_count_le_one.mpr fun id => ?_
  have once := nodup_iff_count_le_one.mp (handed_ids_nodup inv) id
  have same := books.count_called id
  omega

theorem mem_handed_of_called (books : Books c) {id : Nat} (member : id ∈ called c.trace) :
    ∃ request ∈ handed c.trace, request.id = id := by
  have same := books.count_called id
  have positive := count_pos_iff.mpr member
  exact List.mem_map.mp (count_pos_iff.mp (by omega))

end Books

/-- The accepted writes whose callbacks have not been called. -/
def uncalled (trace : List (Event Obj)) : List (Request Obj) :=
  (accepted trace).filter fun request => decide (request.id ∉ called trace)

theorem Books.uncalled_length (books : Books c) (inv : QueueInv c) :
    (uncalled c.trace).length + (called c.trace).length = (accepted c.trace).length := by
  have ids : ((accepted c.trace).map Request.id).Nodup := inv.numbered ▸ nodup_range
  have answered : ((accepted c.trace).filter fun r => decide (r.id ∈ called c.trace)).length =
      (called c.trace).length := by
    rw [← length_map (f := Request.id)]
    refine List.Perm.length_eq ((perm_ext_iff_of_nodup ?_ (books.called_nodup inv)).mpr ?_)
    · exact (filter_sublist.map Request.id).nodup ids
    intro id
    simp only [List.mem_map, mem_filter, decide_eq_true_eq]
    constructor
    · grind
    intro answered
    obtain ⟨request, given, rfl⟩ := books.mem_handed_of_called answered
    exact ⟨request, ⟨inv.handed_accepted given, answered⟩, rfl⟩
  have parts := length_eq_length_filter_add (l := accepted c.trace)
    fun request => decide (request.id ∉ called c.trace)
  simp only [decide_not, Bool.not_not] at parts
  rw [answered] at parts
  simp only [uncalled, decide_not]
  exact parts.symm

theorem Books.pendingcb_eq (books : Books c) (inv : QueueInv c) (none : thrown c.trace = 0) :
    c.state.pendingcb = ((uncalled c.trace).length + c.units : Nat) := by
  have surplus := books.surplus
  have parts := books.uncalled_length inv
  simp only [Config.surplus, none] at surplus
  push_cast
  omega

/-- **Nothing is done twice**, whatever the user code does: it may call methods from inside of
`_write` and `_writev`, and report failures. -/
theorem at_most_once {env : Environment} {allowed : Config Obj → Action Obj → Prop}
    {options : Options}
    (run : Run (step env) allowed (Config.new options) c) :
    (handed c.trace).Nodup ∧ (∀ request ∈ handed c.trace, request ∈ accepted c.trace) ∧
      c.outstanding.length ≤ 1 ∧ (c.state.writing = true ↔ c.outstanding ≠ []) ∧
      (called c.trace).Nodup ∧
      (∀ id ∈ called c.trace, ∃ request ∈ handed c.trace, request.id = id) ∧
      (uncalled c.trace).length + (called c.trace).length = (accepted c.trace).length := by
  have books := Books.of_run run
  have inv := QueueInv.of_run run
  exact ⟨inv.handed_nodup, fun request => inv.handed_accepted, books.outstanding_length,
    books.writing_iff, books.called_nodup inv, fun id => books.mem_handed_of_called,
    books.uncalled_length inv⟩

/-- `_write` writes to its own stream, and a failure is reported. -/
theorem at_most_once_reentrant : ∃ c : Config Empty, (accepted c.trace).length = 2 ∧
    c.state.writing = false ∧ (handed c.trace).Nodup ∧ (called c.trace).Nodup ∧
      c.outstanding.length ≤ 1 := by
  obtain ⟨c, run, two, idle⟩ := Run.exists_of_exec (step plainEnvironment) (fun _ _ => True)
    (Config.new {} : Config Empty)
    (fun c => (accepted c.trace).length = 2 ∧ c.state.writing = false)
    [.write (.buffer [1]) none, .write (.buffer [2]) none, .complete 0 true] (by decide)
  obtain ⟨nodup, -, one, -, called, -, -⟩ := at_most_once run
  exact ⟨c, two, idle, nodup, called, one⟩

end IoJs.Stream.Writable
