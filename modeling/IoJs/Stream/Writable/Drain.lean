import IoJs.Stream.Writable.Inside
import IoJs.Stream.Writable.Length

/-!
# No `'drain'` is forgotten

`needDrain` is set when `write()` returns false, and cleared when `onwriteDrain` finds
`length === 0`. It finds so in the last `afterWrite` at the latest, because `length`
is exact; and as long as `needDrain` is set, there is an `afterWrite` to come (`Watch`):
a hand-over is outstanding, or requests wait, or an `onwrite` is in progress, or an
`afterWrite` is queued.
-/

namespace IoJs.Stream.Writable

open IoJs.Library List

variable {Obj : Type}

/-! ## Runs without `end()` -/

/-- Is it a call of `end()`? -/
def Action.isEnd : Action Obj → Bool
  | .end_ _ _ _ => true
  | _ => false

/-- A call that does not come from `end()` and does not expect the stream to finish. -/
def Frame.endless : Frame Obj → Bool
  | .onwrite _ finished _ => !finished
  | .finish => false
  | .endUncork _ => false
  | .endFinal _ => false
  | .endWritable _ => false
  | _ => true

/-- A tick that does not expect the stream to finish. -/
def Tick.endless : Tick → Bool
  | .afterWrite finished _ => !finished
  | _ => true

/-- `end()` has not been called. -/
structure Endless (c : Config Obj) : Prop where
  ending : c.state.ending = false
  finished : c.state.finished = false
  stack : ∀ frame ∈ c.stack, frame.endless = true
  ticks : ∀ tick ∈ c.ticks, tick.endless = true

namespace Endless

variable {env : Environment} {c c' : Config Obj} {a : Action Obj}

section

variable (endless : Endless c)
include endless

theorem adds (adds : Adds c c') : Endless c' where
  ending := (congrArg Prod.fst adds.phase).trans endless.ending
  finished := (congrArg (·.2.2) adds.phase).trans endless.finished
  stack := by
    obtain ⟨frames, same, minor⟩ := adds.stack
    rw [same]
    intro frame member
    rcases mem_append.mp member with new | old
    · have isMinor := minor frame new
      cases frame <;> first | rfl | cases isMinor
    · exact endless.stack frame old
  ticks := by
    obtain ⟨ticks, same, minor⟩ := adds.ticks
    rw [same]
    intro tick member
    rcases mem_append.mp member with old | new
    · exact endless.ticks tick old
    have isMinor := minor tick new
    cases tick <;> first | rfl | cases isMinor

theorem pop {frame : Frame Obj} {rest : List (Frame Obj)} (top : c.stack = frame :: rest) :
    frame.endless = true ∧ Endless { c with stack := rest } := by
  have whole := endless.stack
  rw [top] at whole
  exact ⟨whole frame mem_cons_self, endless.ending, endless.finished,
    fun f member => whole f (mem_cons_of_mem _ member), endless.ticks⟩

theorem push (frames : List (Frame Obj))
    (others : ∀ frame ∈ frames, frame.endless = true) (stack : c'.stack = frames ++ c.stack)
    (ticks : c'.ticks = c.ticks) (phase : c'.state.phase = c.state.phase) : Endless c' where
  ending := (congrArg Prod.fst phase).trans endless.ending
  finished := (congrArg (·.2.2) phase).trans endless.finished
  stack := by
    rw [stack]
    intro frame member
    exact (mem_append.mp member).elim (others frame) (endless.stack frame)
  ticks := by rw [ticks]; exact endless.ticks

theorem opened {b : Config Obj} (prepared : Opened c a b) : Endless b := by
  cases prepared with
  | uncork => exact endless.push [] nofun rfl rfl rfl
  | end_ cb rest top => cases (endless.pop top).1
  | onwrite index handover cb =>
    refine endless.push [.onwrite _ (needFinish (settle c index handover false).state) cb] ?_ rfl
      rfl rfl
    have notYet : needFinish (settle c index handover false).state = false := by
      simp [needFinish, settle, onwriteStateUpdate, endless.ending]
    simp [Frame.endless, notYet]

/-- A step that does not call `end()` leaves nothing of it on the stack or in a tick. -/
theorem step (success : a.succeeds = true) (noEnd : a.isEnd = false)
    (moved : Transition env c a c') : Endless c' := by
  have resumed : ∀ {frame rest} {d : Config Obj}, c.stack = frame :: rest →
      Adds { c with stack := rest } d → Endless d :=
    fun top added => (endless.pop top).2.adds added
  cases moved with
  | written turn calls passes done =>
    cases calls with
    | end_ => cases noEnd
    | write =>
      cases done with
      | refused er => exact endless.adds (.refuse _ er)
      | threw => exact endless.push [] nofun rfl rfl rfl
      | buffered =>
        exact endless.push [] nofun rfl rfl rfl
      | direct =>
        exact endless.push [.user (.implementation _), .doWrite] (by simp [Frame.endless])
          rfl rfl rfl
  | endCalled => cases noEnd
  | cork turn => exact endless.push [] nofun rfl rfl rfl
  | uncorked => exact endless
  | opened prepared => exact endless.opened prepared
  | flushed prepared ready done =>
    have base := endless.opened prepared
    cases done with
    | fast =>
      exact base.push [.user (.implementation _), .doWrite, .clearFast]
        (by simp [Frame.endless]) rfl rfl rfl
    | slow e =>
      exact base.push [.user (.implementation _), .doWrite, .clearSlow e]
        (by simp [Frame.endless]) rfl rfl rfl
    | dangling => exact base.push [] nofun rfl rfl rfl
  | failed => cases success
  | returned code rest top | notYet rest top => exact (endless.pop top).2
  | ticked tick rest empty first =>
    have popped : Endless { c with ticks := rest } := by
      refine ⟨endless.ending, endless.finished, endless.stack, fun t member => ?_⟩
      exact endless.ticks t (first ▸ mem_cons_of_mem _ member)
    exact popped.adds (.runTick _ tick)
  | refuse er rest top => exact resumed top (.nextTick _ _ rfl)
  | doWrite rest top | clearFast rest top | clearSlow entry rest top
  | clearDangling entry next rest top => exact resumed top (.set _ rfl rfl)
  | clearNext entry next node rest top =>
    exact (endless.pop top).2.push [.user (.implementation _), .doWrite, .clearSlow next]
      (by simp [Frame.endless]) rfl rfl rfl
  | onwriteLater finished cb rest top =>
    obtain ⟨notYet, popped⟩ := endless.pop top
    refine ⟨popped.ending, popped.finished, popped.stack, fun tick member => ?_⟩
    rcases mem_append.mp member with old | new
    · exact popped.ticks tick old
    rw [mem_singleton.mp new]
    exact notYet
  | onwriteNow finished cb rest top => exact resumed top (.afterWrite _ _ _)
  | afterWrite cb rest top => exact resumed top (.afterWriteEnd _ _)
  | callbacks ids failed rest top => exact resumed top (.callNext _ _ _)
  | onwriteError rest top => exact resumed top (.onwriteErrorEnd _)
  | awaits rest top need => exact resumed top (.prefinish _)
  | finishes rest top need none => simp [needFinish, endless.ending] at need
  | finish rest top | endUncork cb rest top | endAgain cb rest top | endFinal cb rest top
  | endWritable cb rest top => cases (endless.pop top).1

end

end Endless

/-! ## An `afterWrite` is to come -/

/-- The rest of `onwrite`, which runs or queues `afterWrite`. -/
def Frame.isOnwrite : Frame Obj → Bool
  | .onwrite _ _ _ => true
  | _ => false

/-- An `afterWrite` is queued, or an `onwrite` in progress is going to run or queue one. -/
def Config.afterWriteAhead (c : Config Obj) : Bool := c.stack.any Frame.isOnwrite || c.deferred

/-- As long as `needDrain` is set, an `afterWrite` is to come. -/
def Watch (c : Config Obj) : Prop :=
  c.state.needDrain = true → c.outstanding ≠ [] ∨ c.waiting ≠ [] ∨ c.afterWriteAhead = true

theorem Adds.afterWriteAhead {c c' : Config Obj} (adds : Adds c c')
    (ahead : c.afterWriteAhead = true) : c'.afterWriteAhead = true := by
  obtain ⟨frames, stack, -⟩ := adds.stack
  obtain ⟨ticks, queued, -⟩ := adds.ticks
  rw [Config.afterWriteAhead, Bool.or_eq_true] at ahead ⊢
  rw [stack, Config.deferred, queued, any_append, any_append, Bool.or_eq_true, Bool.or_eq_true]
  exact ahead.imp .inr .inl

theorem afterWriteAhead_pop {c : Config Obj} {frame : Frame Obj} {rest : List (Frame Obj)}
    (top : c.stack = frame :: rest) (other : frame.isOnwrite = false)
    (ahead : c.afterWriteAhead = true) :
    ({ c with stack := rest } : Config Obj).afterWriteAhead = true := by
  rw [Config.afterWriteAhead, top, any_cons, other, Bool.false_or] at ahead
  exact ahead

namespace Watch

variable {env : Environment} {c c' b : Config Obj} {a : Action Obj}

theorem of_outstanding (handed : c.outstanding ≠ []) : Watch c := fun _ => .inl handed

theorem of_waiting (waits : c.waiting ≠ []) : Watch c := fun _ => .inr (.inl waits)

theorem of_ahead (ahead : c.afterWriteAhead = true) : Watch c := fun _ => .inr (.inr ahead)

theorem of_doWriteOne (d : Config Obj) (request : Request Obj) : Watch (doWriteOne d request) :=
  of_outstanding (by simp [doWriteOne, doWrite])

theorem keep (watch : Watch c) (kept : Keeps c c')
    (ahead : c.afterWriteAhead = true → c'.afterWriteAhead = true) : Watch c' := by
  intro need
  rw [kept.outstanding, Config.waiting, kept.view]
  rcases watch (kept.needDrain need) with handed | waits | before
  · exact .inl handed
  · exact .inr (.inl waits)
  · exact .inr (.inr (ahead before))

theorem afterWrite (measured : Measured c) (cb : Callback) :
    Watch (Writable.afterWrite c false cb) := by
  intro need
  have kept := Keeps.afterWrite c false cb
  rw [kept.outstanding, Config.waiting, kept.view]
  have length : c.state.length ≠ 0 := by
    intro zero
    have owed := kept.needDrain need
    simp [Writable.afterWrite, zero, owed] at need
  by_contra none
  simp only [not_or, not_not] at none
  obtain ⟨handed, waits, -⟩ := none
  have waits' : c.waiting = [] := waits
  have whole := measured.length
  rw [measured.writelen, handed, waits'] at whole
  exact length whole

theorem opened (watch : Watch c) (endless : Endless c) (prepared : Opened c a b) : Watch b := by
  cases prepared with
  | uncork => exact watch
  | end_ cb rest top => cases (endless.pop top).1
  | onwrite =>
    exact of_ahead (by simp [Config.afterWriteAhead, Frame.isOnwrite])

/-- Where `needDrain` is set after a step, an `afterWrite` is to come. -/
theorem step (inv : TidyInv c) (measured : Measured c) (endless : Endless c) (watch : Watch c)
    (polite : ¬ WritesIntoWritev c a) (success : a.succeeds = true) (noEnd : a.isEnd = false)
    (moved : Transition env c a c') : Watch c' := by
  -- The stream's own code goes on, outside of `onwrite`.
  have resumed : ∀ {frame rest} {d : Config Obj}, c.stack = frame :: rest →
      frame.clear? = none → frame.isOnwrite = false →
      Keeps { c with stack := rest } d → Adds { c with stack := rest } d → Watch d :=
    fun top other notOnwrite kept adds => watch.keep ((Keeps.pop top other).trans kept)
      fun ahead => adds.afterWriteAhead (afterWriteAhead_pop top notOnwrite ahead)
  cases moved with
  | @written _ b _ chunk turn calls passes done =>
    cases calls with
    | end_ => cases noEnd
    | write chunk encoding =>
      have calls : Calls c (.write chunk encoding) c := .write chunk encoding
      cases done with
      | refused er => exact watch.keep (.refuse _ er) (Adds.refuse _ er).afterWriteAhead
      | threw => exact watch
      | buffered request len number measured open_ valid present busy =>
        have accepts := accepts_of_written calls passes open_ valid present
        refine of_waiting ?_
        rw [inv.waiting_buffered polite accepts calls request len]
        simp
      | direct =>
        exact of_doWriteOne _ _
  | endCalled => cases noEnd
  | cork turn => exact watch
  | uncorked => exact watch
  | opened prepared => exact watch.opened endless prepared
  | flushed prepared ready done =>
    cases done with
    | fast => exact of_outstanding (by simp [Writable.clearFast, Writable.doWrite])
    | slow => exact of_doWriteOne _ _
    | dangling e first missing =>
      have valid := (queueView_opened prepared).symm ▸ inv.valid
      have within := (valid.buffered ready.processing first).1
      exact absurd within (by simpa [Config.queueView] using missing)
  | failed => cases success
  | returned code rest top | notYet rest top => exact resumed top rfl rfl (.refl _) (.refl _)
  | ticked tick rest empty first =>
    cases tick with
    | afterWrite finished cb =>
      have queued : .afterWrite finished cb ∈ c.ticks := first ▸ mem_cons_self
      have notYet : finished = false := (Bool.not_eq_true' _).mp (endless.ticks _ queued)
      have popped : Measured { c with ticks := rest } := measured.of_keeps (.ticks c rest)
      rw [notYet]
      exact afterWrite popped cb
    | _ =>
      refine watch.keep ((Keeps.ticks c rest).trans (.runTick _ _)) fun ahead => ?_
      refine (Adds.runTick { c with ticks := rest } _).afterWriteAhead ?_
      simpa [Config.afterWriteAhead, Config.deferred, first] using ahead
  | refuse er rest top => exact resumed top rfl rfl (.nextTick _ _) (.nextTick _ _ rfl)
  | doWrite rest top =>
    exact resumed top rfl rfl (.set _ rfl id id (by simp)) (.set _ rfl rfl)
  | clearFast rest top =>
    intro need
    rw [waiting_endFast inv.valid top]
    have popped : c.afterWriteAhead = true → _ := afterWriteAhead_pop top rfl
    exact (watch need).imp_right (.imp_right popped)
  | clearSlow entry rest top =>
    intro need
    rw [waiting_endSlow inv.valid top]
    have popped : c.afterWriteAhead = true → _ := afterWriteAhead_pop top rfl
    exact (watch need).imp_right (.imp_right popped)
  | clearNext => exact of_doWriteOne _ _
  | clearDangling entry next rest top after missing =>
    rw [List.getElem?_eq_none_iff] at missing
    exact absurd (inv.valid.found top after) (by omega)
  | onwriteLater =>
    exact of_ahead (by simp [Config.afterWriteAhead, Config.deferred])
  | onwriteNow finished cb rest top =>
    have notYet : finished = false := by simpa [Frame.endless] using (endless.pop top).1
    rw [notYet]
    exact afterWrite (measured.of_keeps (.pop top rfl)) cb
  | afterWrite cb rest top => exact resumed top rfl rfl (.afterWriteEnd _ _) (.afterWriteEnd _ _)
  | callbacks ids failed rest top => exact resumed top rfl rfl (.callNext _ _ _) (.callNext _ _ _)
  | onwriteError rest top => exact resumed top rfl rfl (.onwriteErrorEnd _) (.onwriteErrorEnd _)
  | awaits rest top need => exact resumed top rfl rfl (.prefinish _) (.prefinish _)
  | finishes rest top need none => simp [needFinish, endless.ending] at need
  | finish rest top | endUncork cb rest top | endAgain cb rest top | endFinal cb rest top
  | endWritable cb rest top => cases (endless.pop top).1

end Watch

/-! ## Quiescent states -/

/-- No completion reports an error, `end()` is not called, and no method is called from
inside of `_write` or `_writev`. -/
structure Draining (c : Config Obj) (a : Action Obj) : Prop where
  success : a.succeeds = true
  outside : Outside c a
  noEnd : a.isEnd = false

instance (c : Config Obj) (a : Action Obj) : Decidable (Draining c a) :=
  decidable_of_iff (a.succeeds = true ∧ Outside c a ∧ a.isEnd = false)
    ⟨fun ⟨success, outside, noEnd⟩ => ⟨success, outside, noEnd⟩,
      fun ⟨success, outside, noEnd⟩ => ⟨success, outside, noEnd⟩⟩

/-- User code runs or could run, and the stream has nothing left to do. -/
structure Config.Quiescent (c : Config Obj) : Prop where
  turn : c.userTurn = true
  completed : c.outstanding = []
  notDeferred : c.deferred = false
  empty : c.getBuffer = []

instance [DecidableEq Obj] (c : Config Obj) : Decidable c.Quiescent :=
  decidable_of_iff
    (c.userTurn = true ∧ c.outstanding = [] ∧ c.deferred = false ∧ c.getBuffer = [])
    ⟨fun ⟨turn, completed, notDeferred, empty⟩ => ⟨turn, completed, notDeferred, empty⟩,
      fun ⟨turn, completed, notDeferred, empty⟩ => ⟨turn, completed, notDeferred, empty⟩⟩

/-- What holds in these runs. -/
structure DrainInv (c : Config Obj) : Prop extends FifoInv c where
  inner : Inner c
  measured : Measured c
  endless : Endless c
  watch : Watch c
  owes : c.trace.foldl owe false = true → c.state.needDrain = true

namespace DrainInv

variable {env : Environment} {c c' : Config Obj} {a : Action Obj}

theorem new (options : Options) : DrainInv (Config.new options : Config Obj) where
  toFifoInv := .new options
  inner := .outside rfl
  measured := ⟨rfl, rfl⟩
  endless := ⟨rfl, rfl, nofun, nofun⟩
  watch := nofun
  owes := nofun

theorem fair (inv : DrainInv c) (draining : Draining c a) (stepped : step env c a = some c') :
    Fair c a := by
  refine draining.outside.fair draining.success ?_ inv.nested stepped
  rintro ⟨-, finished⟩
  simp [inv.endless.finished] at finished

/-- One draining step keeps the invariant. -/
theorem step (inv : DrainInv c) (draining : Draining c a) (stepped : step env c a = some c') :
    DrainInv c' := by
  have fair := inv.fair draining stepped
  have moved := transition_of_step stepped
  refine ⟨inv.toFifoInv.step fair stepped, ?_, ?_, ?_, ?_, ?_⟩
  · exact inv.inner.step inv.toFifoInv fair draining.outside stepped
  · exact .effect inv.toTidyInv inv.books inv.measured fair.polite (moved.effect inv.valid)
  · exact inv.endless.step draining.success draining.noEnd moved
  · exact .step inv.toTidyInv inv.measured inv.endless inv.watch fair.polite draining.success
      draining.noEnd moved
  obtain ⟨events, same, -, owes⟩ := moved.logs
  simpa [same] using owes _ inv.owes

theorem needDrain_of_quiescent (inv : DrainInv c) (quiet : c.Quiescent) :
    c.state.needDrain = false := by
  have outside := inv.inner.outside_of_settled quiet.turn quiet.completed quiet.notDeferred
  have plain := inv.nested.all_plain (Nested.plain_of_turn quiet.turn) outside
  have noOnwrite : c.stack.any Frame.isOnwrite = false := by
    refine List.any_eq_false.mpr fun frame member => ?_
    have isPlain := List.all_eq_true.mp plain frame member
    cases frame <;> first | exact Bool.false_ne_true | cases isPlain
  by_contra need
  rw [Bool.not_eq_false] at need
  rcases inv.watch need with handed | waits | ahead
  · exact handed quiet.completed
  · rw [waiting_of_idle_config (inv.nested.clears_of_turn quiet.turn outside), quiet.empty] at waits
    exact waits rfl
  · simp [Config.afterWriteAhead, noOnwrite, quiet.notDeferred] at ahead

end DrainInv

theorem foldl_owe_of_not_drain {events : List (Event Obj)} (none : .emitted .drain ∉ events) :
    events.foldl owe true = true := by
  induction events with
  | nil => rfl
  | cons event events ih =>
    rw [mem_cons, not_or] at none
    have still : owe true event = true := by
      cases event with
      | accepted request ret => cases ret <;> rfl
      | emitted emission =>
        cases emission with
        | drain => exact absurd rfl none.1
        | _ => rfl
      | _ => rfl
    simpa [still] using ih none.2

/-- **No `'drain'` is forgotten.** In a quiescent state `needDrain` is false, and every
`write()` that returned false was followed by a `'drain'`. -/
theorem drain_not_forgotten {env : Environment} {options : Options} {c : Config Obj}
    (run : Run (step env) Draining (Config.new options) c) (quiet : c.Quiescent) :
    c.state.needDrain = false ∧
    ∀ before after request, c.trace = before ++ .accepted request false :: after →
      .emitted .drain ∈ after := by
  have inv : DrainInv c := run.invariant DrainInv (.new options) fun inv draining stepped =>
    inv.step draining stepped
  have satisfied := inv.needDrain_of_quiescent quiet
  refine ⟨satisfied, fun before after request same => ?_⟩
  by_contra none
  have owed : c.trace.foldl owe false = true := by
    rw [same, foldl_append, foldl_cons]
    exact foldl_owe_of_not_drain none
  simp [inv.owes owed] at satisfied

/-- An empty chunk, which fills a stream with `highWaterMark: 0`, is completed inside
of `_write`. -/
theorem drain_not_forgotten_after_empty_chunk :
    ∃ c : Config Empty, c.trace.head? = some (.accepted ⟨0, .buffer [], "buffer"⟩ false) ∧
      c.Quiescent ∧ c.state.needDrain = false := by
  obtain ⟨c, run, full, quiet⟩ := Run.exists_of_exec (step plainEnvironment) Draining
    (Config.new { highWaterMark := some 0 } : Config Empty)
    (fun c => c.trace.head? = some (.accepted ⟨0, .buffer [], "buffer"⟩ false) ∧ c.Quiescent)
    [.write (.buffer []) none, .complete 0 false, .resume, .ret, .resume, .tick] (by decide)
  exact ⟨c, full, quiet, (drain_not_forgotten run quiet).1⟩

end IoJs.Stream.Writable
