import IoJs.Stream.Writable.Accounting
import IoJs.Stream.Writable.Lossless
import IoJs.Stream.Writable.Nesting

/-!
# Calls from inside `_write` and `_writev`

An implementation may call methods of its stream before it completes. The stream
is writing then, so a chunk that is written is buffered. In the slow case of
`clearBuffer` the loop finds it later; in the fast case it is lost
(`lost_in_writev`).
-/

namespace IoJs.Stream.Writable

open IoJs.Library

variable {Obj : Type} {c c' : Config Obj} {a : Action Obj} {env : Environment}

/-! ## What an environment may do -/

/-- The implementation inside of which the running code was called. -/
def Config.innermost? (c : Config Obj) : Option (Handover Obj) :=
  c.stack.findSome? fun
    | .user (.implementation handover) => some handover
    | _ => none

/-- Inside of `_write` or `_writev`, methods are called only before the hand-over is
completed. -/
def BeforeCompletion (c : Config Obj) (a : Action Obj) : Prop :=
  a.isMethod = true → ∀ handover ∈ c.innermost?, handover ∈ c.outstanding

instance [DecidableEq Obj] (c : Config Obj) (a : Action Obj) : Decidable (BeforeCompletion c a) :=
  inferInstanceAs (Decidable (_ → ∀ handover ∈ c.innermost?, _))

/-- No completion reports an error. -/
def Action.succeeds : Action Obj → Bool
  | .complete _ failed => !failed
  | _ => true

/-- A chunk is accepted by a stream that has finished. -/
def WritesAfterFinish (c : Config Obj) (a : Action Obj) : Prop :=
  a.accepts c.state = true ∧ c.state.finished = true

instance (c : Config Obj) (a : Action Obj) : Decidable (WritesAfterFinish c a) :=
  inferInstanceAs (Decidable (_ ∧ _))

theorem innermost?_isSome (inside : c.insideImplementation = true) :
    ∃ handover, c.innermost? = some handover := by
  obtain ⟨frame, member, here⟩ := List.any_eq_true.mp inside
  rw [← Option.isSome_iff_exists, Config.innermost?, List.findSome?_isSome_iff]
  refine ⟨frame, member, ?_⟩
  cases frame with
  | user code =>
    cases code with
    | implementation => rfl
    | _ => cases here
  | _ => cases here

theorem BeforeCompletion.writing (early : BeforeCompletion c a)
    (method : a.isMethod = true) (turn : c.userTurn = true) (nested : Nested c.stack)
    (books : Books c) : clears c.stack = [] ∨ c.state.writing = true := by
  cases inside : c.insideImplementation with
  | false => exact .inl (nested.clears_of_turn turn inside)
  | true =>
    obtain ⟨handover, here⟩ := innermost?_isSome inside
    exact .inr (books.writing_iff.mpr (List.ne_nil_of_mem (early method handover here)))

/-! ## What is buffered is going to be handed over -/

/-- While requests wait, the stream is writing, or is corked, or `clearBuffer` runs,
or the stream has finished. -/
def Busy (c : Config Obj) : Prop :=
  c.queueView.waiting ≠ [] → c.state.writing = true ∨ c.state.corked ≠ 0 ∨ clears c.stack ≠ [] ∨
    c.state.finished = true

namespace Busy

variable {c c' b : Config Obj} {a : Action Obj}

theorem of_writing (writing : c.state.writing = true) : Busy c := fun _ => .inl writing

theorem of_empty (empty : c.queueView.waiting = []) : Busy c := fun waits => absurd empty waits

theorem of_keeps (busy : Busy c) (kept : Keeps c c') : Busy c' := by
  intro waits
  rw [kept.view] at waits
  have same : clears c'.stack = clears c.stack := congrArg QueueView.clears kept.view
  rw [kept.writing, kept.corked, same]
  rcases busy waits with writing | corked | clearing | finished
  · exact .inl writing
  · exact .inr (.inl corked)
  · exact .inr (.inr (.inl clearing))
  · exact .inr (.inr (.inr (kept.finished finished)))

theorem of_rests (valid : b.queueView.Valid) (rests : b.Rests) : Busy b := by
  intro waits
  rcases rests with writing | corked | finished | processing | empty
  · exact .inl writing
  · exact .inr (.inl corked)
  · exact .inr (.inr (.inr finished))
  · refine .inr (.inr (.inl fun idle => ?_))
    have same := valid.processing
    rw [show b.queueView.clears = [] from idle, show b.queueView.processing = true from processing]
      at same
    cases same
  refine .inr (.inr (.inl fun idle => ?_))
  exact waits (QueueView.waiting_of_empty idle empty)

theorem effect (valid : c.queueView.Valid) (busy : Busy c) (success : a.succeeds = true)
    {env : Environment} (moved : Effect env c a c') : Busy c' := by
  cases moved with
  | keeps kept => exact busy.of_keeps kept
  | cork => exact fun _ => .inr (.inl (Nat.succ_ne_zero _))
  | buffered calls request len accepts number measured holds =>
    intro _
    rcases holds with writing | corked
    · exact .inl (by cases calls <;> exact writing)
    · exact .inr (.inl (by cases calls <;> exact corked))
  | direct | fast | slow | clearNext =>
    exact of_writing rfl
  | opened prepared rests => exact of_rests ((queueView_opened prepared).symm ▸ valid) rests
  | failed index handover cb reports => rw [reports] at success; cases success
  | clearFast rest top =>
    refine of_empty ?_
    have ended := (valid.endFast (clears_top top rfl)).2
    rw [← queueView_pop top rfl] at ended
    exact (congrArg Ledger.waiting ended).trans (QueueView.waiting_of_fast (clears_top top rfl))
  | clearSlow entry rest top stops =>
    rcases stops with writing | last
    · exact of_writing writing
    refine of_empty ?_
    have slow := clears_top top rfl
    have alone := (valid.slow slow).1
    rw [last]
    exact QueueView.waiting_of_empty alone rfl

end Busy

/-! ## First in, first out -/

/-- What holds in error-free runs where no chunk is lost. -/
structure FifoInv (c : Config Obj) : Prop extends TidyInv c where
  nested : Nested c.stack
  books : Books c
  busy : Busy c
  fifo : c.ledger.Fifo

/-- What an environment may do for the order to be kept. -/
structure Fair (c : Config Obj) (a : Action Obj) : Prop where
  success : a.succeeds = true
  early : BeforeCompletion c a
  polite : ¬ WritesIntoWritev c a
  open_ : ¬ WritesAfterFinish c a

instance [DecidableEq Obj] (c : Config Obj) (a : Action Obj) : Decidable (Fair c a) :=
  decidable_of_iff
    (a.succeeds = true ∧ BeforeCompletion c a ∧ ¬ WritesIntoWritev c a ∧ ¬ WritesAfterFinish c a)
    ⟨fun ⟨success, early, polite, open_⟩ => ⟨success, early, polite, open_⟩,
      fun ⟨success, early, polite, open_⟩ => ⟨success, early, polite, open_⟩⟩

theorem FifoInv.new (options : Options) : FifoInv (Config.new options : Config Obj) where
  toTidyInv := .new options
  nested := .nil
  books := .new options
  busy := .of_empty rfl
  fifo := rfl

theorem FifoInv.orderly (inv : FifoInv c)
    (fair : Fair c a) (stepped : step env c a = some c') {move : Ledger.Move (Request Obj)}
    (known : c.MoveOf a move) : move.Orderly c.ledger := by
  cases move with
  | direct request =>
    obtain ⟨idle, uncorked⟩ := known.direct request rfl
    have accepts := known.accepts request rfl
    have method := a.isMethod_of_accepts accepts
    by_contra waits
    rcases inv.busy waits with writing | corked | clearing | finished
    · rw [idle] at writing; cases writing
    · exact corked uncorked
    · rcases fair.early.writing method (turn_of_step method stepped) inv.nested inv.books with
        none | writing
      · exact clearing none
      · rw [idle] at writing; cases writing
    · exact fair.open_ ⟨accepts, finished⟩
  | _ => trivial

/-- One fair step keeps first in, first out. -/
theorem FifoInv.step (inv : FifoInv c)
    (fair : Fair c a) (stepped : step env c a = some c') : FifoInv c' where
  toTidyInv := inv.toTidyInv.step fair.polite stepped
  nested := inv.nested.step (transition_of_step stepped)
  books := inv.books.step (transition_of_step stepped)
  busy := inv.busy.effect inv.valid fair.success ((transition_of_step stepped).effect inv.valid)
  fifo := by
    obtain ⟨-, move, known, after⟩ := step_ledger inv.valid stepped
    rw [after]
    exact inv.fifo.after (inv.orderly fair stepped known)
      (lossless_of_tidy inv.tidy fair.polite known)

/-- It holds in every fair run. -/
theorem FifoInv.of_run {options : Options}
    (run : Run (Writable.step env) Fair (Config.new options) c) : FifoInv c :=
  run.invariant FifoInv (.new options) fun inv fair stepped => inv.step fair stepped

theorem FifoInv.handed_first (inv : FifoInv c) : handed c.trace <+: accepted c.trace :=
  ⟨c.queueView.waiting, inv.fifo⟩

theorem FifoInv.handed_all (inv : FifoInv c) (idle : clears c.stack = [])
    (empty : c.getBuffer = []) : handed c.trace = accepted c.trace := by
  have none : c.queueView.waiting = [] := by
    have same := waiting_of_idle_config idle
    rw [empty] at same
    exact same
  have fifo : handed c.trace ++ c.queueView.waiting = accepted c.trace := inv.fifo
  rwa [none, List.append_nil] at fifo

/-! ## Nothing is lost -/

/-- Every accepted chunk was handed over or is reachable from `bufferedRequest`. -/
def Config.NothingLost (c : Config Obj) : Prop :=
  ∀ request ∈ accepted c.trace,
    request ∈ handed c.trace ∨ request ∈ c.getBuffer.map WriteReq.request

/-- `lastBufferedRequest` is null where the list is empty, and else its last node. -/
def Config.TailRight (c : Config Obj) : Prop :=
  (c.state.lastBufferedRequest = none ↔ c.getBuffer = []) ∧
    ∀ e, c.state.lastBufferedRequest = some e → c.getBuffer.getLast? = c.heap[e]?

instance [DecidableEq Obj] (c : Config Obj) : Decidable c.NothingLost :=
  inferInstanceAs (Decidable (∀ request ∈ accepted c.trace, _))

/-- A step that writes nothing into `_writev` loses no chunk. -/
theorem complete_step (inv : TidyInv c)
    (complete : c.ledger.Complete) (polite : ¬ WritesIntoWritev c a)
    (stepped : step env c a = some c') : c'.ledger.Complete := by
  obtain ⟨-, move, known, after⟩ := step_ledger inv.valid stepped
  rw [after]
  exact complete.after (lossless_of_tidy inv.tidy polite known)

theorem nothingLost_of_complete (inv : TidyInv c)
    (complete : c.ledger.Complete) : c.NothingLost := by
  intro request member
  rcases complete request member with passed | waits
  · exact .inl passed
  · exact .inr (QueueView.waiting_subset inv.valid waits)

theorem tailRight_of_tidy (inv : TidyInv c) (idle : clears c.stack = []) : c.TailRight := by
  have situation := inv.valid.situation
  have idle' : c.queueView.clears = [] := idle
  simp only [QueueView.Situation, idle'] at situation
  cases first : c.state.bufferedRequest with
  | none =>
    have empty : c.getBuffer = [] := by
      rw [Config.getBuffer, first]
      cases c.heap.length <;> rfl
    have last : c.state.lastBufferedRequest = none := inv.tidy.empty idle first
    refine ⟨⟨fun _ => empty, fun _ => last⟩, fun e contra => ?_⟩
    rw [last] at contra
    cases contra
  | some b =>
    rw [show c.queueView.first = some b from first] at situation
    obtain ⟨within, linked, last⟩ := situation
    have within' : b < c.heap.length := within
    have last' : c.state.lastBufferedRequest = some (c.heap.length - 1) := last
    have buffer : c.getBuffer = c.heap.drop b := by
      rw [Config.getBuffer, first]
      exact follow_linked linked (by omega)
    refine ⟨⟨fun contra => ?_, fun empty => ?_⟩, fun e here => ?_⟩
    · rw [last'] at contra
      cases contra
    · rw [buffer, List.drop_eq_nil_iff] at empty
      omega
    rw [last'] at here
    cases here
    rw [buffer, List.getLast?_drop, if_neg (by omega), List.getLast?_eq_getElem?]

/-- **As long as no chunk is accepted while `_writev` runs, none is lost**, and
outside `clearBuffer` the tail of the list is right. If moreover nothing fails,
implementations call methods only before they complete, and a finished stream
accepts nothing, then chunks are handed over in the order of acceptance; so of two
streams that accept the same chunks, with or without `_writev`, one has handed over
what the other has, or more, and the same if both have nothing left. -/
theorem nothing_lost (options : Options) : (∀ (env : Environment) (c : Config Obj),
      Run (step env) (fun c a => ¬ WritesIntoWritev c a) (Config.new options) c →
      c.NothingLost ∧ (clears c.stack = [] → c.TailRight)) ∧
    (∀ (env env' : Environment) (c c' : Config Obj),
      Run (step env) Fair (Config.new options) c → Run (step env') Fair (Config.new options) c' →
      accepted c.trace = accepted c'.trace →
      handed c.trace <+: accepted c.trace ∧
      (handed c.trace <+: handed c'.trace ∨ handed c'.trace <+: handed c.trace) ∧
      (clears c.stack = [] → c.getBuffer = [] → clears c'.stack = [] → c'.getBuffer = [] →
        handed c.trace = handed c'.trace)) := by
  refine ⟨fun env c run => ?_, fun env env' c c' run run' same => ?_⟩
  · have both : TidyInv c ∧ c.ledger.Complete := by
      refine run.invariant (fun c => TidyInv c ∧ c.ledger.Complete) ⟨.new options, nofun⟩ ?_
      rintro s s' a ⟨inv, complete⟩ polite stepped
      exact ⟨inv.step polite stepped, complete_step inv complete polite stepped⟩
    exact ⟨nothingLost_of_complete both.1 both.2, tailRight_of_tidy both.1⟩
  have inv := FifoInv.of_run run
  have inv' := FifoInv.of_run run'
  have first' : handed c'.trace <+: accepted c.trace := same ▸ inv'.handed_first
  refine ⟨inv.handed_first, List.prefix_or_prefix_of_prefix inv.handed_first first', ?_⟩
  intro idle empty idle' empty'
  have all := inv.handed_all idle empty
  have all' := inv'.handed_all idle' empty'
  rw [all, all', same]

/-- A chunk written from inside `_write` is handed over by a stream with `_writev`. -/
theorem nothing_lost_inside_write :
    ∃ c : Config Empty, (handed c.trace).map Request.id = [0, 1] ∧ c.getBuffer = [] ∧
      c.NothingLost ∧ handed c.trace <+: accepted c.trace := by
  obtain ⟨c, run, given, empty⟩ := Run.exists_of_exec (step vectorEnvironment) Fair
    (Config.new {} : Config Empty)
    (fun c => (handed c.trace).map Request.id = [0, 1] ∧ c.getBuffer = [])
    [.write (byte 1) none, .write (byte 2) none, .ret, .resume, .complete 0 false, .ret, .resume,
      .resume, .resume, .resume, .ret, .resume] (by decide)
  obtain ⟨first, second⟩ := @nothing_lost Empty {}
  have kept := first vectorEnvironment c (run.mono fun fair => fair.polite)
  exact ⟨c, given, empty, kept.1, (second _ _ c c run run rfl).1⟩

/-- **A chunk written from inside `_writev` is lost.** -/
theorem lost_in_writev : ∃ c : Config Empty, Run (step vectorEnvironment)
      (fun c a => a.succeeds = true ∧ BeforeCompletion c a) (Config.new {}) c ∧
    ¬ c.NothingLost :=
  Run.exists_of_exec _ _ _ _
    [.cork, .write (byte 1) none, .write (byte 2) none, .uncork,
      .write (byte 3) none,      -- inside `_writev`
      .ret, .resume, .resume]    -- `clearBuffer` ends
    (by decide)

end IoJs.Stream.Writable
