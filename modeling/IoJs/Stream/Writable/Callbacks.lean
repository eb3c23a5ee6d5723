import IoJs.Stream.Writable.Finish
import IoJs.Stream.Writable.Inside

/-!
# Hand-overs and callbacks in the order of the writes

Runs in which nothing fails, and methods are called neither from inside `_write` or
`_writev` nor by listeners of `'prefinish'` and `'finish'`. They accept nothing
once `end()` has set `ending` (`Closing`), so chunks are handed over in order, and all
of them when the stream has nothing left to do.
-/

namespace IoJs.Stream.Writable

open IoJs.Library List Option

variable {Obj : Type}

/-! ## What an environment may do -/

/-- Do listeners of `'prefinish'` or `'finish'` run? -/
def Config.listensToEnd (c : Config Obj) : Bool :=
  match c.stack with
  | .user (.listeners .prefinish) :: _ => true
  | .user (.listeners .finish) :: _ => true
  | _ => false

/-- No completion reports an error, and methods are called neither from inside of
`_write` or `_writev` nor by listeners of `'prefinish'` or `'finish'`. -/
structure Calm (c : Config Obj) (a : Action Obj) : Prop where
  success : a.succeeds = true
  outside : Outside c a
  silent : a.isMethod = true → c.listensToEnd = false

instance (c : Config Obj) (a : Action Obj) : Decidable (Calm c a) :=
  decidable_of_iff
    (a.succeeds = true ∧ Outside c a ∧ (a.isMethod = true → c.listensToEnd = false))
    ⟨fun ⟨success, outside, silent⟩ => ⟨success, outside, silent⟩,
      fun ⟨success, outside, silent⟩ => ⟨success, outside, silent⟩⟩

/-! ## While the stream ends -/

/-- A call made by the `finishMaybe` of `end()`. -/
def Frame.finishing : Frame Obj → Bool
  | .finish => true
  | .user (.listeners .prefinish) => true
  | .user (.listeners .finish) => true
  | _ => false

/-- How far `end()` has come. -/
inductive Closing (c : Config Obj) : Prop where
  | open_ (ending : c.state.ending = false) (finished : c.state.finished = false)
      (undecided : .finish ∉ c.stack)
  | starting (cb : Option Nat) (rest : List (Frame Obj))
      (stack : c.stack = .finishMaybe :: .endWritable cb :: rest)
  | finishing (cb : Option Nat) (above rest : List (Frame Obj))
      (stack : c.stack = above ++ .endWritable cb :: rest)
      (calls : ∀ frame ∈ above, frame.finishing = true) (settled : c.outstanding = [])
  | stopping (cb : Option Nat) (rest : List (Frame Obj)) (stack : c.stack = .endWritable cb :: rest)
  | closed (ended : c.state.ended = true)

namespace Closing

variable {env : Environment} {c c' : Config Obj} {a : Action Obj}

theorem open_of_accepts (closing : Closing c) (calm : Calm c a)
    (accepts : a.accepts c.state = true) (stepped : step env c a = some c') :
    c.state.ending = false ∧ c.state.finished = false ∧ .finish ∉ c.stack := by
  have method := a.isMethod_of_accepts accepts
  have turn := turn_of_step method stepped
  have silent := calm.silent method
  cases closing with
  | open_ ending finished undecided => exact ⟨ending, finished, undecided⟩
  | starting cb rest stack | stopping cb rest stack =>
    rw [Config.userTurn, stack] at turn; cases turn
  | finishing cb above rest stack calls =>
    exfalso
    cases above with
    | nil => rw [Config.userTurn, stack] at turn; cases turn
    | cons frame =>
      have call := calls frame mem_cons_self
      rw [Config.userTurn, stack] at turn
      rw [Config.listensToEnd, stack] at silent
      cases frame with
      | user code =>
        cases code with
        | listeners event =>
          cases event with
          | prefinish => cases silent
          | finish => cases silent
          | _ => cases call
        | _ => cases call
      | _ => cases turn
  | closed ended =>
    rw [Action.accepts] at accepts
    cases passes : a.chunk? with
    | none => rw [passes] at accepts; cases accepts
    | some => simp [passes, ended] at accepts

/-- Listeners run that call no method, and no hand-over can be completed: all they can
do is to return. -/
theorem ret_of_listens (calm : Calm c a) (listens : c.listensToEnd = true)
    (settled : c.outstanding = []) (stepped : Writable.step env c a = some c') :
    ∃ frame rest, c.stack = frame :: rest ∧ c' = { c with stack := rest } := by
  have noMethod : a.isMethod ≠ true := by
    intro method
    simp [calm.silent method] at listens
  have user : ∃ code rest, c.stack = .user code :: rest := by grind [Config.listensToEnd]
  obtain ⟨code, rest, stack⟩ := user
  cases a with
  | complete => simp [Writable.step, settled] at stepped
  | ret =>
    simp only [Writable.step, stack, Option.some.injEq] at stepped
    exact ⟨_, rest, stack, stepped.symm⟩
  | tick => simp [Writable.step, stack] at stepped
  | resume => simp [Writable.step, stack, resume] at stepped
  | _ => exact absurd rfl noMethod

theorem of_finishMaybe {d : Config Obj} (books : Books d) {cb : Option Nat}
    {rest : List (Frame Obj)} (stack : d.stack = .endWritable cb :: rest) :
    Closing (finishMaybe d) := by
  simp only [finishMaybe]
  split
  · rename_i need
    have settled : d.outstanding = [] := by grind [needFinish, books.writing_iff.mpr]
    split
    · simp only [prefinish]
      split
      · exact .finishing cb [.finish] rest (by simp [stack]) (by simp [Frame.finishing]) settled
      exact .finishing cb [.user (.listeners .prefinish), .finish] rest (by simp [stack])
        (by simp [Frame.finishing]) settled
    simp only [prefinish]
    split
    · exact .stopping cb rest stack
    exact .finishing cb [.user (.listeners .prefinish)] rest (by simp [stack])
      (by simp [Frame.finishing]) settled
  · exact .stopping cb rest stack

/-- A calm step leaves `end()` in one of these stages. -/
theorem step (books : Books c) (closing : Closing c) (calm : Calm c a)
    (stepped : Writable.step env c a = some c') : Closing c' := by
  cases closing with
  | open_ ending finished undecided =>
    cases (transition_of_step stepped).endStep with
    | minor phase frames =>
      exact .open_ ((congrArg Prod.fst phase).trans ending)
        ((congrArg (·.2.2) phase).trans finished) fun member => undecided (frames member)
    | finishes rest top need none => simp [needFinish, ending] at need
    | finish rest top => exact absurd (top ▸ mem_cons_self) undecided
    | endFinal cb rest top => exact .starting cb rest rfl
    | endWritable => exact .closed (by rw [endWritableEnd_state])
  | starting cb rest stack =>
    have resumed := step_internal stack rfl stepped
    cases resumed
    exact of_finishMaybe (books.resumed stack (.refl _)) rfl
  | stopping cb rest stack =>
    have resumed := step_internal stack rfl stepped
    cases resumed
    exact .closed (by rw [endWritableEnd_state])
  | finishing cb above rest stack calls settled =>
    cases above with
    | nil =>
      have resumed := step_internal stack rfl stepped
      cases resumed
      exact .closed (by rw [endWritableEnd_state])
    | cons frame above =>
      have call := calls frame mem_cons_self
      have others : ∀ f ∈ above, f.finishing = true :=
        fun f member => calls f (mem_cons_of_mem _ member)
      have returned (listens : c.listensToEnd = true) : Closing c' := by
        obtain ⟨f, rest', stack', same⟩ := ret_of_listens calm listens settled stepped
        rw [stack] at stack'
        cases stack'
        rw [same]
        exact .finishing cb above rest rfl others settled
      cases frame with
      | user code =>
        cases code with
        | listeners event =>
          cases event with
          | prefinish | finish => exact returned (by rw [Config.listensToEnd, stack]; rfl)
          | _ => cases call
        | _ => cases call
      | finish =>
        have resumed := step_internal stack rfl stepped
        cases resumed
        refine .finishing cb (.user (.listeners .finish) :: above) rest rfl ?_ settled
        simpa [Frame.finishing] using others
      | _ => cases call
  | closed ended =>
    refine .closed ?_
    cases (transition_of_step stepped).endStep with
    | minor phase => exact (congrArg (·.2.1) phase).trans ended
    | finishes rest =>
      have phase := (Adds.prefinish ({ c with stack := rest }.push .finish)).phase
      exact (congrArg (·.2.1) phase).trans ended
    | finish => exact ended
    | endFinal => exact ended
    | endWritable => rw [endWritableEnd_state]

end Closing

/-! ## Everything is handed over -/

/-- What holds in these runs. -/
structure CalmInv (c : Config Obj) : Prop extends FifoInv c where
  inner : Inner c
  closing : Closing c
  drained : .finish ∈ c.stack ∨ c.state.finished = true → c.waiting = []

namespace CalmInv

variable {env : Environment} {c c' : Config Obj} {a : Action Obj}

theorem new (options : Options) : CalmInv (Config.new options : Config Obj) where
  toFifoInv := .new options
  inner := .outside rfl
  closing := .open_ rfl rfl nofun
  drained := nofun

section

variable (inv : CalmInv c)
include inv

theorem fair (calm : Calm c a) (stepped : step env c a = some c') : Fair c a := by
  refine calm.outside.fair calm.success ?_ inv.nested stepped
  rintro ⟨accepts, finished⟩
  simp [(inv.closing.open_of_accepts calm accepts stepped).2.1] at finished

/-- A step that accepts nothing keeps an empty queue empty. -/
theorem waiting_step (refused : a.accepts c.state ≠ true)
    (stepped : Writable.step env c a = some c') (empty : c.waiting = []) : c'.waiting = [] := by
  obtain ⟨-, move, known, after⟩ := step_ledger inv.valid stepped
  have same : c'.waiting = (c.ledger.after move).waiting := congrArg Ledger.waiting after
  have empty' : c.ledger.waiting = [] := empty
  rw [same]
  cases move with
  | rest => exact empty
  | pass => simp [Ledger.after, empty']
  | enqueue item | direct item | drop item => exact absurd (known.accepts item rfl) refused

theorem waiting_of_finishMaybe {rest : List (Frame Obj)}
    (top : c.stack = .finishMaybe :: rest) (need : needFinish c.state = true) :
    c.waiting = [] := by
  have outside : c.insideImplementation = false := by
    cases inv.inner with
    | outside none => exact none
    | running handover rest' stack => rw [top] at stack; cases stack
    | completing finished cb handover rest' stack => simp [top] at stack
  have idle : clears c.stack = [] := inv.nested.clears_of_plain (by rw [top]; rfl) outside
  simp only [needFinish, Bool.and_eq_true, isNone_iff_eq_none] at need
  exact QueueView.waiting_of_empty idle need.1.1.2

/-- When the stream comes to `'finish'`, all has been handed over. -/
theorem drained_step (calm : Calm c a) (stepped : Writable.step env c a = some c') :
    .finish ∈ c'.stack ∨ c'.state.finished = true → c'.waiting = [] := by
  have kept (before : .finish ∈ c.stack ∨ c.state.finished = true) : c'.waiting = [] := by
    refine inv.waiting_step (fun accepts => ?_) stepped (inv.drained before)
    obtain ⟨-, finished, undecided⟩ := inv.closing.open_of_accepts calm accepts stepped
    rcases before with decided | done
    · exact undecided decided
    · rw [finished] at done; cases done
  have below {frame : Frame Obj} {rest : List (Frame Obj)} (top : c.stack = frame :: rest) :
      .finish ∈ rest → .finish ∈ c.stack := fun member => top ▸ mem_cons_of_mem _ member
  intro after
  cases (transition_of_step stepped).endStep with
  | minor phase frames =>
    refine kept (after.imp frames fun finished => ?_)
    exact (congrArg (·.2.2) phase).symm.trans finished
  | finishes rest top need none =>
    have whole := ((Keeps.pop top rfl).trans (.push _ .finish rfl)).trans (.prefinish _)
    rw [Config.waiting, whole.view]
    exact inv.waiting_of_finishMaybe top need
  | finish rest top => exact kept (.inl (top ▸ mem_cons_self))
  | endFinal cb rest top =>
    refine kept (after.imp_left fun member => below top ?_)
    simpa [Writable.endWritable] using member
  | endWritable cb rest top =>
    rw [endWritableEnd_stack, endWritableEnd_state] at after
    exact kept (after.imp_left (below top))

/-- One calm step keeps the invariant. -/
theorem step (calm : Calm c a) (stepped : Writable.step env c a = some c') : CalmInv c' where
  toFifoInv := inv.toFifoInv.step (inv.fair calm stepped) stepped
  inner := inv.inner.step inv.toFifoInv (inv.fair calm stepped) calm.outside stepped
  closing := inv.closing.step inv.books calm stepped
  drained := inv.drained_step calm stepped

theorem handed_eq_accepted (turn : c.userTurn = true)
    (completed : c.outstanding = []) (notDeferred : c.deferred = false)
    (uncorked : c.state.corked = 0) : handed c.trace = accepted c.trace := by
  have outside := inv.inner.outside_of_settled turn completed notDeferred
  have empty : c.queueView.waiting = [] := by
    by_contra waits
    rcases inv.busy waits with writing | corked | clearing | finished
    · exact inv.books.writing_iff.mp writing completed
    · exact corked uncorked
    · exact clearing (inv.nested.clears_of_turn turn outside)
    · exact waits (inv.drained (.inr finished))
  have fifo : handed c.trace ++ c.queueView.waiting = accepted c.trace := inv.fifo
  rwa [empty, append_nil] at fifo

end

end CalmInv

/-! ## Callbacks in a line -/

/-- The writes whose callbacks a call in progress calls before it returns. -/
def Frame.owedNow : Frame Obj → List Nat
  | .onwrite false _ cb => cb.ids
  | .afterWrite cb => cb.ids
  | .callbacks ids _ => ids
  | _ => []

/-- The writes whose callbacks a call in progress leaves to a tick. -/
def Frame.owedLater : Frame Obj → List Nat
  | .onwrite true _ cb => cb.ids
  | _ => []

/-- The writes whose callbacks have been called, and then those whose callbacks are
kept, in the order in which they are going to be called. -/
def Config.line (c : Config Obj) : List Nat :=
  called c.trace ++ c.stack.flatMap Frame.owedNow ++ c.ticks.flatMap Tick.owed ++
    c.stack.flatMap Frame.owedLater ++ c.state.writecb.toList.flatMap Callback.ids

open Writable.Frame (owedLater owedNow)

/-- Is it the report of a completion? -/
def Action.completes : Action Obj → Bool
  | .complete _ _ => true
  | _ => false

/-- A completion outside of `_write` and `_writev` is reported only where no callback is
due. -/
structure Timely (c : Config Obj) (a : Action Obj) : Prop extends Calm c a where
  timely : a.completes = true → c.state.sync = true ∨ c.due = []

instance (c : Config Obj) (a : Action Obj) : Decidable (Timely c a) :=
  decidable_of_iff (Calm c a ∧ (a.completes = true → c.state.sync = true ∨ c.due = []))
    ⟨fun ⟨calm, timely⟩ => ⟨calm, timely⟩, fun ⟨calm, timely⟩ => ⟨calm, timely⟩⟩

/-- `sync` is set only inside of `_write` or `_writev`, or after it was completed. -/
def SyncInside (c : Config Obj) : Prop :=
  c.state.sync = true → c.outstanding = [] ∨ c.insideImplementation = true ∨
    ∃ rest, c.stack = .doWrite :: rest

namespace SyncInside

variable {env : Environment} {c c' : Config Obj} {a : Action Obj}

theorem of_doWrite (d : Config Obj) (handover : Handover Obj) (len : Int) (cb : Callback) :
    SyncInside (doWrite d handover len cb) := by
  intro _
  refine .inr (.inl ?_)
  simp [doWrite, Config.insideImplementation, Frame.isImplementation]

theorem effect (sync : c.state.sync = true → c.outstanding = [])
    (moved : Effect env c a c') : SyncInside c' := by
  cases moved with
  | keeps kept => exact fun set => .inl (kept.outstanding.trans (sync (kept.sync set)))
  | cork | clearFast | clearSlow => exact fun set => .inl (sync set)
  | buffered calls =>
    intro set
    cases calls <;> exact .inl (sync set)
  | direct | fast | slow | clearNext =>
    exact of_doWrite _ _ _ _
  | opened prepared =>
    intro set
    cases prepared with
    | uncork | end_ => exact .inl (sync set)
    | onwrite index handover cb turn found kept => rw [sync set] at found; cases found
  | failed index handover cb reports found =>
    have kept := Keeps.onwriteError (settle c index handover true) c.state.sync cb
    intro set
    rw [sync (kept.sync set)] at found
    cases found

/-- A calm step leaves `sync` set only inside of the implementation, or behind its completion. -/
theorem step (inv : CalmInv c) (sync : SyncInside c) (calm : Calm c a)
    (stepped : Writable.step env c a = some c') : SyncInside c' := by
  have moved := transition_of_step stepped
  cases inv.inner with
  | running handover rest stack =>
    have inside : c.insideImplementation = true := by
      simp [Config.insideImplementation, stack, Frame.isImplementation]
    cases a with
    | complete index failed =>
      refine fun _ => .inr (.inl ?_)
      cases moved with
      | written turn calls => cases calls
      | failed => cases calm.success
      | opened prepared =>
        cases prepared with
        | onwrite =>
          simp [Config.insideImplementation, settle, stack, Frame.isImplementation]
      | flushed prepared ready done =>
        cases done with
        | fast =>
          simp [Config.insideImplementation, clearFast, doWrite, Frame.isImplementation]
        | slow =>
          simp [Config.insideImplementation, doWriteOne, doWrite, Frame.isImplementation]
        | dangling =>
          cases prepared with
          | onwrite =>
            simp [Config.insideImplementation, clearSlowEnd, Config.process, settle, stack,
              Frame.isImplementation]
    | ret =>
      simp only [Writable.step, stack, Option.some.injEq] at stepped
      exact fun _ => .inr (.inr ⟨rest, by rw [← stepped]⟩)
    | tick => simp [Writable.step, stack] at stepped
    | resume => simp [Writable.step, stack, resume] at stepped
    | _ => simp [calm.outside rfl] at inside
  | completing finished cb handover rest stack =>
    have resumed := step_internal stack rfl stepped
    cases resumed
    refine fun _ => .inr (.inl ?_)
    simp [onwriteEnd, Config.insideImplementation, Frame.isImplementation]
  | outside none =>
    by_cases back : ∃ rest, c.stack = .doWrite :: rest
    · obtain ⟨rest, top⟩ := back
      have resumed := step_internal top rfl stepped
      cases resumed
      intro set
      cases set
    refine effect (fun set => ?_) (moved.effect inv.valid)
    rcases sync set with settled | inside | top
    · exact settled
    · rw [none] at inside; cases inside
    · exact absurd top back

end SyncInside

/-- The callbacks are called and kept in the order of the hand-overs, and at most the
running call leaves some to a tick. -/
structure InLine (c : Config Obj) : Prop where
  line : c.line = (handed c.trace).map Request.id
  late : c.stack.tail.flatMap owedLater = []

theorem Frame.owedLater_of_minor {frame : Frame Obj} (minor : frame.minor = true) :
    frame.owedLater = [] := by
  cases frame <;> first | rfl | cases minor

theorem flatMap_tail_eq_nil {frames : List (Frame Obj)} (none : frames.flatMap owedLater = []) :
    frames.tail.flatMap owedLater = [] := by
  rw [flatMap_eq_nil_iff] at none ⊢
  exact fun frame member => none frame (mem_of_mem_tail member)

namespace InLine

variable {env : Environment} {c c' d : Config Obj} {a : Action Obj}
variable {frame : Frame Obj} {rest : List (Frame Obj)}

theorem late_of_top (inLine : InLine c)
    (top : c.stack = frame :: rest) : rest.flatMap owedLater = [] := by
  have late := inLine.late
  rwa [top] at late

theorem late_of_turn (inLine : InLine c) (turn : c.userTurn = true) :
    c.stack.flatMap owedLater = [] := by
  rw [Config.userTurn] at turn
  split at turn
  · rename_i stack; rw [stack]; rfl
  · rename_i code rest stack
    rw [stack, flatMap_cons, inLine.late_of_top stack]
    rfl
  · cases turn

theorem late_adds (adds : Adds d c') (late : d.stack.flatMap owedLater = []) :
    c'.stack.tail.flatMap owedLater = [] := by
  obtain ⟨frames, same, minor⟩ := adds.stack
  refine flatMap_tail_eq_nil ?_
  rw [same, flatMap_append, late, append_nil, flatMap_eq_nil_iff]
  exact fun frame member => Frame.owedLater_of_minor (minor frame member)

theorem keep (inLine : InLine c) (kept : Keeps c c') (same : c'.line = c.line)
    (late : c'.stack.tail.flatMap owedLater = []) : InLine c' where
  line := by
    have given : handed c'.trace = handed c.trace := congrArg QueueView.handed kept.view
    rw [same, given]
    exact inLine.line
  late := late

theorem doWrite (handover : Handover Obj) (len : Int) (cb : Callback)
    (line : d.line = (handed d.trace).map Request.id) (none : d.state.writecb = none)
    (ids : cb.ids = handover.requests.map Request.id)
    (late : d.stack.flatMap owedLater = []) : InLine (doWrite d handover len cb) where
  line := by
    rw [Config.line, none] at line
    simp [Config.line, Writable.doWrite, owedNow, owedLater, ids, ← line]
  late := by simpa [Writable.doWrite, owedLater] using late

theorem doWriteOne (request : Request Obj) (line : d.line = (handed d.trace).map Request.id)
    (none : d.state.writecb = none) (late : d.stack.flatMap owedLater = []) :
    InLine (doWriteOne d request) :=
  doWrite ⟨false, [request]⟩ _ _ line none rfl late

theorem writecb_of_idle (books : Books d) (idle : d.state.writing = false) :
    d.state.writecb = none := by
  rcases books.single with ⟨-, -, none⟩ | ⟨handover, cb, -, writing, -⟩
  · exact none
  · rw [idle] at writing; cases writing

theorem empty_of_due (due : c.due = []) :
    c.stack.flatMap owedNow = [] ∧ c.stack.flatMap owedLater = [] ∧
      c.ticks.flatMap Tick.owed = [] := by
  obtain ⟨stack, ticks⟩ := append_eq_nil_iff.mp due
  rw [flatMap_eq_nil_iff] at stack
  refine ⟨flatMap_eq_nil_iff.mpr fun frame member => ?_,
    flatMap_eq_nil_iff.mpr fun frame member => ?_, ticks⟩
  · have none := stack frame member
    cases frame with
    | onwrite sync => cases sync <;> first | rfl | exact none
    | _ => first | rfl | exact none
  have none := stack frame member
  cases frame with
  | onwrite sync => cases sync <;> first | rfl | exact none
  | _ => rfl

theorem not_ready_of_sync (inv : CalmInv c) (sync : SyncInside c) (turn : c.userTurn = true)
    (handed : c.outstanding ≠ []) (isSync : c.state.sync = true) :
    c.state.bufferProcessing = true ∨ c.state.bufferedRequest = none := by
  cases inv.inner with
  | running handover rest stack below isSync watched still => exact still
  | completing finished cb handover rest stack below isSync still => exact still
  | outside none =>
    rcases sync isSync with settled | inside | ⟨rest, top⟩
    · exact absurd settled handed
    · rw [none] at inside; cases inside
    · rw [Config.userTurn, top] at turn; cases turn

theorem opened {b : Config Obj} (inv : CalmInv c) (sync : SyncInside c) (inLine : InLine c)
    (timely : Timely c a) (prepared : Opened c a b) :
    InLine b ∧ (b.Ready → b.stack.flatMap owedLater = []) := by
  cases prepared with
  | uncork turn => exact ⟨⟨inLine.line, inLine.late⟩, fun _ => inLine.late_of_turn turn⟩
  | end_ cb rest top =>
    have late := inLine.late_of_top top
    have line := inLine.line
    rw [Config.line, top] at line
    refine ⟨⟨?_, late⟩, fun _ => by simpa [owedLater] using late⟩
    simpa [Config.line, owedNow, owedLater] using line
  | onwrite index handover cb turn found kept =>
    have late := inLine.late_of_turn turn
    have line := inLine.line
    rw [Config.line, kept, late] at line
    cases isSync : c.state.sync with
    | true =>
      refine ⟨⟨?_, late⟩, fun ready => ?_⟩
      · simpa [Config.line, settle, onwriteStateUpdate, owedNow, owedLater, late]
          using line
      have handed : c.outstanding ≠ [] := by rintro settled; rw [settled] at found; cases found
      rcases not_ready_of_sync inv sync turn handed isSync with processing | empty
      · cases processing.symm.trans ready.processing
      obtain ⟨e, first⟩ := isSome_iff_exists.mp ready.buffered
      cases empty.symm.trans first
    | false =>
      have due : c.due = [] := by
        rcases timely.timely rfl with set | due
        · rw [isSync] at set; cases set
        · exact due
      obtain ⟨now, -, ticks⟩ := empty_of_due due
      refine ⟨⟨?_, late⟩, fun _ => by simpa [settle, owedLater] using late⟩
      simpa [Config.line, settle, onwriteStateUpdate, owedNow, owedLater, now, ticks,
        late] using line

theorem line_pop (top : c.stack = frame :: rest)
    (now : frame.owedNow = []) (later : frame.owedLater = []) :
    ({ c with stack := rest } : Config Obj).line = c.line := by
  simp [Config.line, top, now, later]

theorem line_set (f : WritableState → WritableState)
    (writecb : (f d.state).writecb = d.state.writecb) : (d.set f).line = d.line := by
  simp [Config.line, writecb]

theorem line_push (now : frame.owedNow = []) (later : frame.owedLater = []) :
    (d.push frame).line = d.line := by
  simp [Config.line, now, later]

theorem line_emit (event : Emission) : (d.emit event).line = d.line := by
  simp [Config.line, owedNow, owedLater]

theorem line_nextTick {tick : Tick} (none : tick.owed = []) : (d.nextTick tick).line = d.line := by
  simp [Config.line, none]

theorem line_prefinish : (prefinish d).line = d.line := by
  simp only [prefinish]
  split
  · rfl
  · exact (line_emit _).trans (line_set _ rfl)

theorem line_endWritableEnd {cb : Option Nat} : (endWritableEnd d cb).line = d.line := by
  cases cb with
  | none => exact line_set _ rfl
  | some =>
    simp only [endWritableEnd]
    split
    · exact (line_set _ rfl).trans (line_nextTick rfl)
    · exact line_set _ rfl

theorem line_callCallback (cb : Callback) (failed : Bool) :
    (callCallback d cb failed).line = called d.trace ++ cb.ids ++ d.stack.flatMap owedNow ++
      d.ticks.flatMap Tick.owed ++ d.stack.flatMap owedLater ++
        d.state.writecb.toList.flatMap Callback.ids := by
  cases cb with
  | write | writev => simp [callCallback, Config.line, owedNow, owedLater, Callback.ids]

theorem line_afterWrite (finished : Bool) (cb : Callback) :
    (afterWrite d finished cb).line = called d.trace ++ cb.ids ++ d.stack.flatMap owedNow ++
      d.ticks.flatMap Tick.owed ++ d.stack.flatMap owedLater ++
        d.state.writecb.toList.flatMap Callback.ids := by
  have pushed : (d.push (.afterWrite cb)).line = called d.trace ++ cb.ids ++
      d.stack.flatMap owedNow ++ d.ticks.flatMap Tick.owed ++
        d.stack.flatMap owedLater ++ d.state.writecb.toList.flatMap Callback.ids := by
    simp [Config.line, owedNow, owedLater]
  simp only [afterWrite]
  split
  · exact ((line_emit _).trans (line_set _ rfl)).trans pushed
  · exact pushed

/-- A timely step keeps the callbacks in line. -/
theorem step (inv : CalmInv c) (sync : SyncInside c) (inLine : InLine c) (timely : Timely c a)
    (stepped : Writable.step env c a = some c') : InLine c' := by
  have line := inLine.line
  -- The stream's own code goes on.
  have resumed : ∀ {frame rest} {d : Config Obj}, c.stack = frame :: rest →
      frame.clear? = none → Keeps { c with stack := rest } d → Adds { c with stack := rest } d →
      d.line = c.line → InLine d :=
    fun top other kept adds same => inLine.keep ((Keeps.pop top other).trans kept) same
      (late_adds adds (inLine.late_of_top top))
  cases transition_of_step stepped with
  | @written _ b _ chunk turn calls passes done =>
    have late : b.stack.flatMap owedLater = [] := by
      cases calls with
      | write => exact inLine.late_of_turn turn
      | end_ => simpa [owedLater] using inLine.late_of_turn turn
    have same : b.line = c.line := by
      cases calls with
      | write => rfl
      | end_ => exact line_push rfl rfl
    have kept := Keeps.calls calls
    cases done with
    | refused er =>
      exact inLine.keep (kept.trans (.refuse b er))
        (((line_emit _).trans (line_push rfl rfl)).trans same) (late_adds (.refuse b er) late)
    | threw =>
      refine inLine.keep ((kept.trans (.charge b)).trans (.log _ rfl rfl)) ?_
        (flatMap_tail_eq_nil late)
      rw [← same]
      simp [Config.line, Config.charge]
    | buffered =>
      refine ⟨?_, flatMap_tail_eq_nil late⟩
      have given : handed b.trace = handed c.trace := congrArg QueueView.handed kept.view
      rw [← same, ← given] at line
      simpa [Config.line, bufferRequest, accept, Config.charge] using line
    | direct request len number measured open_ valid present idle =>
      have given : handed b.trace = handed c.trace := congrArg QueueView.handed kept.view
      rw [← same, ← given] at line
      have none : b.state.writecb = none := writecb_of_idle (inv.books.calls calls) idle
      refine doWriteOne request ?_ none late
      simpa [Config.line, accept, Config.charge] using line
  | endCalled chunk encoding cb turn =>
    refine inLine.keep (.push c _ rfl) (line_push rfl rfl) (flatMap_tail_eq_nil ?_)
    simpa [owedLater] using inLine.late_of_turn turn
  | cork turn => exact ⟨line, inLine.late⟩
  | uncorked => exact inLine
  | opened prepared => exact (inLine.opened inv sync timely prepared).1
  | flushed prepared ready done =>
    obtain ⟨base, late⟩ := inLine.opened inv sync timely prepared
    have none := writecb_of_idle (inv.books.opened prepared) ready.writing
    cases done with
    | fast =>
      refine doWrite _ _ _ ?_ none rfl ?_
      · simpa [Config.line, owedNow, owedLater, Config.process] using base.line
      · simpa [owedLater, Config.process] using late ready
    | slow =>
      refine doWriteOne _ ?_ none ?_
      · simpa [Config.line, owedNow, owedLater, Config.process] using base.line
      · simpa [owedLater, Config.process] using late ready
    | dangling => exact ⟨base.line, base.late⟩
  | failed => cases timely.success
  | returned code rest top | notYet rest top | endAgain cb rest top =>
    exact resumed top rfl (.refl _) (.refl _) (line_pop top rfl rfl)
  | ticked tick rest empty first =>
    have kept := (Keeps.ticks c rest).trans (.runTick _ tick)
    have late : c.stack.flatMap owedLater = [] := by rw [empty]; rfl
    refine inLine.keep kept ?_ (late_adds (.runTick { c with ticks := rest } tick) late)
    cases tick with
    | afterWrite =>
      rw [runTick, line_afterWrite]
      simp [Config.line, empty, first, Tick.owed]
    | onwriteError cb =>
      rw [runTick, line_callCallback]
      simp [Config.line, empty, first, Tick.owed]
    | refused | endCallback =>
      simp [runTick, Config.line, empty, first, Tick.owed, owedNow, owedLater]
  | refuse er rest top =>
    exact resumed top rfl (.nextTick _ _) (.nextTick _ _ rfl)
      ((line_nextTick rfl).trans (line_pop top rfl rfl))
  | doWrite rest top =>
    exact resumed top rfl (.set _ rfl id id (by simp)) (.set _ rfl rfl)
      ((line_set _ rfl).trans (line_pop top rfl rfl))
  | clearFast rest top | clearSlow entry rest top | clearDangling entry next rest top =>
    refine ⟨?_, flatMap_tail_eq_nil (inLine.late_of_top top)⟩
    exact ((line_set _ rfl).trans (line_pop top rfl rfl)).trans line
  | clearNext entry next node rest top after found idle =>
    have none : c.state.writecb = none := writecb_of_idle inv.books idle
    refine doWriteOne _ ?_ none ?_
    · exact ((line_push rfl rfl).trans (line_pop top rfl rfl)).trans line
    · simpa [owedLater] using inLine.late_of_top top
  | onwriteLater finished cb rest top =>
    refine inLine.keep ((Keeps.pop top rfl).trans (.nextTick _ _)) ?_
      (flatMap_tail_eq_nil (inLine.late_of_top top))
    simp [Config.line, top, Tick.owed, owedNow, owedLater, inLine.late_of_top top]
  | onwriteNow finished cb rest top =>
    refine resumed top rfl (.afterWrite _ _ _) (.afterWrite _ _ _) ?_
    rw [line_afterWrite]
    simp [Config.line, top, owedNow, owedLater]
  | afterWrite cb rest top =>
    refine resumed top rfl (.afterWriteEnd _ _) (.afterWriteEnd _ _) ?_
    rw [afterWriteEnd, line_callCallback]
    simp [Config.line, top, owedNow, owedLater]
  | callbacks ids failed rest top =>
    refine resumed top rfl (.callNext _ _ _) (.callNext _ _ _) ?_
    cases ids with
    | nil => exact line_pop top rfl rfl
    | cons =>
      rw [callNext, line_callCallback]
      simp [Config.line, top, owedNow, owedLater, Callback.ids]
  | onwriteError rest top =>
    exact resumed top rfl (.onwriteErrorEnd _) (.onwriteErrorEnd _)
      (((line_emit _).trans (line_set _ rfl)).trans (line_pop top rfl rfl))
  | awaits rest top need =>
    exact resumed top rfl (.prefinish _) (.prefinish _)
      (line_prefinish.trans (line_pop top rfl rfl))
  | finishes rest top =>
    refine inLine.keep (((Keeps.pop top rfl).trans (.push _ .finish rfl)).trans (.prefinish _))
      (line_prefinish.trans ((line_push rfl rfl).trans (line_pop top rfl rfl)))
      (late_adds (.prefinish _) ?_)
    simpa [owedLater] using inLine.late_of_top top
  | finish rest top =>
    refine inLine.keep ((Keeps.pop top rfl).trans (.finish _)) ?_ (inLine.late_of_top top)
    exact ((line_emit _).trans (line_set _ rfl)).trans (line_pop top rfl rfl)
  | endUncork cb rest top =>
    exact inLine.keep ((Keeps.pop top rfl).trans (.push _ (.endFinal cb) rfl))
      ((line_push rfl rfl).trans (line_pop top rfl rfl)) (inLine.late_of_top top)
  | endFinal cb rest top =>
    refine inLine.keep ((Keeps.pop top rfl).trans (.endWritable _ cb)) ?_ ?_
    · exact ((line_push rfl rfl).trans ((line_push rfl rfl).trans (line_set _ rfl))).trans
        (line_pop top rfl rfl)
    · simpa [endWritable, owedLater] using inLine.late_of_top top
  | endWritable cb rest top =>
    refine inLine.keep ((Keeps.pop top rfl).trans (.endWritableEnd _ cb)) ?_ ?_
    · exact line_endWritableEnd.trans (line_pop top rfl rfl)
    rw [endWritableEnd_stack]
    exact flatMap_tail_eq_nil (inLine.late_of_top top)

end InLine

/-! ## The contract -/

/-- What holds in these runs where callbacks are called in order. -/
structure TimelyInv (c : Config Obj) : Prop extends CalmInv c where
  sync : SyncInside c
  inLine : InLine c

theorem TimelyInv.new (options : Options) : TimelyInv (Config.new options : Config Obj) where
  toCalmInv := .new options
  sync := fun _ => .inl rfl
  inLine := ⟨rfl, rfl⟩

/-- One timely step keeps the invariant. -/
theorem TimelyInv.step {env : Environment} {c c' : Config Obj} {a : Action Obj}
    (inv : TimelyInv c) (timely : Timely c a) (stepped : step env c a = some c') :
    TimelyInv c' where
  toCalmInv := inv.toCalmInv.step timely.toCalm stepped
  sync := inv.sync.step inv.toCalmInv timely.toCalm stepped
  inLine := inv.inLine.step inv.toCalmInv inv.sync timely stepped

/-- **The contract of a Writable**, in every run where nothing fails and methods are called
neither from inside of `_write` or `_writev` nor by listeners of `'prefinish'` or
`'finish'`: what is handed over comes first among what is accepted, each chunk once, one
hand-over at a time; no callback is called twice; and where the stream has nothing left to
do, everything was handed over. If moreover no completion is reported outside of `_write`
while callbacks are due, the callbacks are called in the order of the writes. -/
theorem handed_and_called_in_order (env : Environment) (options : Options) (c : Config Obj) :
    (Run (step env) Calm (Config.new options) c →
      handed c.trace <+: accepted c.trace ∧ (handed c.trace).Nodup ∧ c.outstanding.length ≤ 1 ∧
      (called c.trace).Nodup ∧
      (c.userTurn = true → c.outstanding = [] → c.deferred = false → c.state.corked = 0 →
        handed c.trace = accepted c.trace)) ∧
    (Run (step env) Timely (Config.new options) c →
      called c.trace <+: (accepted c.trace).map Request.id) := by
  constructor
  · intro run
    have inv : CalmInv c := run.invariant CalmInv (.new options) fun inv calm stepped =>
      inv.step calm stepped
    exact ⟨inv.handed_first, inv.handed_nodup, inv.books.outstanding_length,
      inv.books.called_nodup inv.toQueueInv, inv.handed_eq_accepted⟩
  intro run
  have inv : TimelyInv c := run.invariant TimelyInv (.new options) fun inv timely stepped =>
    inv.step timely stepped
  have first : called c.trace <+: (handed c.trace).map Request.id := by
    simp [← inv.inLine.line, Config.line]
  exact first.trans (inv.handed_first.map Request.id)

/-- Two chunks, the first completed inside of `_write` and the second after the tick that
calls the first one's callback. -/
theorem handed_and_called_in_order_of_two_writes :
    ∃ c : Config Empty, called c.trace = [0, 1] ∧
      called c.trace <+: (accepted c.trace).map Request.id ∧
      handed c.trace = accepted c.trace := by
  obtain ⟨c, run, both, turn, completed, notDeferred, uncorked⟩ :=
    Run.exists_of_exec (step plainEnvironment) Timely (Config.new {} : Config Empty)
      (fun c => called c.trace = [0, 1] ∧ c.userTurn = true ∧ c.outstanding = [] ∧
        c.deferred = false ∧ c.state.corked = 0)
      [.write (byte 1) none, .complete 0 false, .resume, .ret, .resume, .write (byte 2) none, .ret,
        .resume, .tick, .resume, .ret, .resume, .complete 0 false, .resume, .resume] (by decide)
  obtain ⟨contract, order⟩ := handed_and_called_in_order plainEnvironment {} c
  obtain ⟨-, -, -, -, all⟩ := contract (run.mono Timely.toCalm)
  exact ⟨c, both, order run, all turn completed notDeferred uncorked⟩

/-- **A callback is called before that of an earlier write**: the first chunk is completed
inside of `_write`, the second outside, before the tick that calls the first callback. -/
theorem callback_overtakes :
    ∃ c : Config Empty, Run (step plainEnvironment) Calm (Config.new {}) c ∧
      called c.trace = [1, 0] :=
  Run.exists_of_exec _ _ _ _
    [.write (byte 1) none, .complete 0 false, .resume, .ret, .resume, .write (byte 2) none, .ret,
      .resume, .complete 0 false, .resume, .resume, .ret, .resume, .tick, .resume] (by decide)

end IoJs.Stream.Writable
