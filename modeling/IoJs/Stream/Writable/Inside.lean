import IoJs.Stream.Writable.Reentrancy

/-!
# Runs without calls from inside `_write` and `_writev`

If implementations call no method of their stream, then at most one of them is on
the stack, it is the code that runs, and a completion that it reports is a
synchronous one: `afterWrite` is left to a tick (`Inner`). So wherever user code runs
while `clearBuffer` is active, a hand-over is outstanding or an `afterWrite` is queued.
-/

namespace IoJs.Stream.Writable

open IoJs.Library List

variable {Obj : Type} {c c' : Config Obj} {env : Environment} {a : Action Obj}

/-- No method is called from inside of `_write` or `_writev`. -/
def Outside (c : Config Obj) (a : Action Obj) : Prop :=
  a.isMethod = true → c.insideImplementation = false

instance (c : Config Obj) (a : Action Obj) : Decidable (Outside c a) :=
  inferInstanceAs (Decidable (_ → _))

theorem innermost?_eq_none (outside : c.insideImplementation = false) : c.innermost? = none := by
  rw [Config.innermost?, List.findSome?_eq_none_iff]
  intro frame member
  have other := List.any_eq_false.mp outside frame member
  cases frame with
  | user code =>
    cases code with
    | implementation => exact absurd rfl other
    | _ => rfl
  | _ => rfl

theorem Outside.fair
    (outside : Outside c a) (success : a.succeeds = true) (open_ : ¬ WritesAfterFinish c a)
    (nested : Nested c.stack) (stepped : step env c a = some c') : Fair c a where
  success := success
  early method handover here := by
    rw [innermost?_eq_none (outside method)] at here
    cases here
  polite := by
    rintro ⟨accepts, fast⟩
    have method := a.isMethod_of_accepts accepts
    rw [nested.clears_of_turn (turn_of_step method stepped) (outside method)] at fast
    cases fast
  open_ := open_

/-- An `afterWrite` is queued. -/
def Config.deferred (c : Config Obj) : Bool :=
  c.ticks.any fun
    | .afterWrite _ _ => true
    | _ => false

/-- How an implementation can be on the stack. -/
inductive Inner (c : Config Obj) : Prop where
  | outside (none : c.insideImplementation = false)
  | running (handover : Handover Obj) (rest : List (Frame Obj))
      (stack : c.stack = .user (.implementation handover) :: .doWrite :: rest)
      (below : rest.any Frame.isImplementation = false) (sync : c.state.sync = true)
      (watched : c.outstanding ≠ [] ∨ c.deferred = true)
      (still : c.state.bufferProcessing = true ∨ c.state.bufferedRequest = none)
  | completing (finished : Bool) (cb : Callback) (handover : Handover Obj)
      (rest : List (Frame Obj))
      (stack : c.stack = .onwrite true finished cb :: .user (.implementation handover) ::
        .doWrite :: rest)
      (below : rest.any Frame.isImplementation = false) (sync : c.state.sync = true)
      (still : c.state.bufferProcessing = true ∨ c.state.bufferedRequest = none)

theorem Adds.inside (adds : Adds c c') : c'.insideImplementation = c.insideImplementation := by
  obtain ⟨frames, same, minor⟩ := adds.stack
  have none : frames.any Frame.isImplementation = false :=
    List.any_eq_false.mpr fun frame member => by
      simpa using (Frame.plain_of_minor (minor frame member)).2
  rw [Config.insideImplementation, same, any_append, none, Bool.false_or]
  rfl

def Frame.isUser : Frame Obj → Bool
  | .user _ => true
  | _ => false

/-- A call of the stream's own on top is what a step goes on with. -/
theorem step_internal {frame : Frame Obj} {rest : List (Frame Obj)} (top : c.stack = frame :: rest)
    (internal : frame.isUser = false) (stepped : step env c a = some c') :
    resume env { c with stack := rest } frame = some c' := by
  have turn : c.userTurn = false := by
    rw [Config.userTurn, top]
    cases frame with
    | user code => cases internal
    | _ => rfl
  cases a with
  | resume => simpa [step, top] using stepped
  | ret =>
    simp only [step, top] at stepped
    split at stepped
    · rename_i code _ same
      cases same
      cases internal
    · cases stepped
  | tick => simp [step, top] at stepped
  | _ => simp [step, turn] at stepped

theorem bufferedRequest_eq_none (valid : c.queueView.Valid)
    (idle : clears c.stack = []) (empty : c.queueView.waiting = []) :
    c.state.bufferedRequest = none := by
  cases first : c.state.bufferedRequest with
  | none => rfl
  | some b =>
    have situation := valid.situation
    have idle' : c.queueView.clears = [] := idle
    have first' : c.queueView.first = some b := first
    simp only [QueueView.Situation, idle', first'] at situation
    obtain ⟨within, linked, -⟩ := situation
    rw [QueueView.waiting_of_idle idle' first' linked, map_eq_nil_iff, drop_eq_nil_iff] at empty
    omega

namespace Inner

variable {env : Environment} {c c' : Config Obj} {a : Action Obj}

theorem of_stack (frames : List (Frame Obj)) {stack : List (Frame Obj)}
    (same : c'.stack = frames ++ stack) (others : frames.any Frame.isImplementation = false)
    (none : stack.any Frame.isImplementation = false) : Inner c' := by
  refine .outside ?_
  rw [Config.insideImplementation, same, any_append, others, none]
  rfl

theorem of_doWrite (d : Config Obj) (none : d.stack.any Frame.isImplementation = false)
    (handover : Handover Obj) (len : Int) (cb : Callback)
    (still : d.state.bufferProcessing = true ∨ d.state.bufferedRequest = Option.none) :
    Inner (doWrite d handover len cb) := by
  refine .running handover d.stack rfl none rfl (.inl ?_) still
  simp [doWrite]

/-- A step outside of the implementation enters it in one of these ways. -/
theorem step_outside (inv : FifoInv c) (fair : Fair c a)
    (stepped : step env c a = some c') (none : c.insideImplementation = false) : Inner c' := by
  have moved := transition_of_step stepped
  have below : ∀ {frame rest}, c.stack = frame :: rest →
      rest.any Frame.isImplementation = false := by
    intro frame rest top
    rw [Config.insideImplementation, top, any_cons, Bool.or_eq_false_iff] at none
    exact none.2
  have resumed : ∀ {frame rest} {d : Config Obj}, c.stack = frame :: rest →
      Adds { c with stack := rest } d → Inner d :=
    fun top adds => .outside (adds.inside.trans (below top))
  have prepare : ∀ {b : Config Obj}, Opened c a b → b.stack.any Frame.isImplementation = false := by
    intro b prepared
    cases prepared with
    | uncork => exact none
    | end_ cb rest top =>
      have popped := below top
      exact popped
    | onwrite => exact none
  cases moved with
  | @written _ b _ chunk turn calls passes done =>
    have base : b.stack.any Frame.isImplementation = false := by cases calls <;> exact none
    cases done with
    | refused er => exact .outside ((Adds.refuse b er).inside.trans base)
    | threw => exact .outside base
    | buffered => exact .outside base
    | direct request len number measured open_ valid present idle uncorked =>
      refine of_doWrite (accept b.charge request len) base _ _ _ (.inr ?_)
      have state : b.state = c.state := by cases calls <;> rfl
      have accepts := accepts_of_written calls passes open_ valid present
      have noClear := inv.nested.clears_of_turn turn none
      have buffered : c.state.bufferedRequest = Option.none := by
        refine bufferedRequest_eq_none inv.valid noClear ?_
        by_contra waits
        rcases inv.busy waits with writing | corked | clearing | finished
        · rw [state, writing] at idle; cases idle
        · exact corked (state ▸ uncorked)
        · exact clearing noClear
        · exact fair.open_ ⟨accepts, finished⟩
      exact (congrArg WritableState.bufferedRequest state).trans buffered
  | endCalled chunk encoding cb turn => exact of_stack [.endUncork cb] rfl rfl none
  | cork turn => exact .outside none
  | uncorked => exact .outside none
  | opened prepared => exact .outside (prepare prepared)
  | flushed prepared ready done =>
    have base := prepare prepared
    cases done with
    | fast =>
      refine of_doWrite (Config.push (Config.set _ fun s =>
        { s with pendingcb := s.pendingcb + 1, lastBufferedRequest := Option.none }) .clearFast)
        ?_ _ _ _ (.inl rfl)
      exact base
    | slow e =>
      refine of_doWrite (Config.push _ (.clearSlow e)) ?_ _ _ _ (.inl rfl)
      exact base
    | dangling => exact of_stack [] rfl rfl base
  | failed => cases fair.success
  | returned code rest top | notYet rest top | endAgain cb rest top => exact resumed top (.refl _)
  | ticked tick rest =>
    exact .outside ((Adds.runTick { c with ticks := rest } tick).inside.trans none)
  | refuse er rest top => exact resumed top (.nextTick _ _ rfl)
  | doWrite rest top | clearFast rest top | clearSlow entry rest top
  | clearDangling entry next rest top => exact resumed top (.set _ rfl rfl)
  | clearNext entry next node rest top =>
    have popped := below top
    refine of_doWrite (Config.push { c with stack := rest } (.clearSlow next)) popped _ _ _
      (.inl ?_)
    have processing := inv.valid.processing
    rw [clears_top top rfl] at processing
    exact processing
  | onwriteLater finished cb rest top => exact of_stack [] rfl rfl (below top)
  | onwriteNow finished cb rest top => exact resumed top (.afterWrite _ _ _)
  | afterWrite cb rest top => exact resumed top (.afterWriteEnd _ _)
  | callbacks ids failed rest top => exact resumed top (.callNext _ _ _)
  | onwriteError rest top => exact resumed top (.onwriteErrorEnd _)
  | awaits rest top need => exact resumed top (.prefinish _)
  | finishes rest top =>
    refine .outside ((Adds.prefinish _).inside.trans ?_)
    simpa [Config.insideImplementation, Frame.isImplementation] using below top
  | finish rest top => exact of_stack [.user (.listeners .finish)] rfl rfl (below top)
  | endUncork cb rest top => exact of_stack [.endFinal cb] rfl rfl (below top)
  | endFinal cb rest top =>
    exact of_stack [.finishMaybe, .endWritable cb] rfl rfl (below top)
  | endWritable cb rest top =>
    exact of_stack [] (endWritableEnd_stack { c with stack := rest } cb) rfl (below top)

/-- One step keeps how an implementation can be on the stack. -/
theorem step (inv : FifoInv c) (inner : Inner c) (fair : Fair c a) (outside : Outside c a)
    (stepped : step env c a = some c') : Inner c' := by
  cases inner with
  | outside none => exact step_outside inv fair stepped none
  | running handover rest stack below sync watched still =>
    have inside : c.insideImplementation = true := by
      simp [Config.insideImplementation, stack, Frame.isImplementation]
    have noMethod : a.isMethod ≠ true := by
      intro method
      rw [outside method] at inside
      cases inside
    cases a with
    | complete index failed =>
      cases failed with
      | true => cases fair.success
      | false =>
        have moved := transition_of_step stepped
        cases moved with
        | written turn calls => cases calls
        | opened prepared =>
          cases prepared with
          | onwrite _ handover' cb =>
            refine .completing (needFinish (settle c index handover' false).state) cb
              handover rest ?_ below sync still
            simp [settle, stack, sync]
        | flushed prepared ready done =>
          cases prepared with
          | onwrite =>
            exfalso
            rcases still with processing | empty
            · cases processing.symm.trans ready.processing
            obtain ⟨e, first⟩ := Option.isSome_iff_exists.mp ready.buffered
            cases empty.symm.trans first
    | ret =>
      simp only [Writable.step, stack, Option.some.injEq] at stepped
      rw [← stepped]
      exact of_stack [.doWrite] rfl rfl below
    | tick => simp [Writable.step, stack] at stepped
    | resume => simp [Writable.step, stack, resume] at stepped
    | _ => exact absurd rfl noMethod
  | completing finished cb handover rest stack below sync still =>
    have resumed := step_internal stack rfl stepped
    cases resumed
    refine .running handover rest rfl below sync (.inr ?_) still
    simp [onwriteEnd, Config.deferred]

/-- While user code runs inside of an implementation, a hand-over is outstanding or an
`afterWrite` is queued. -/
theorem watched_of_turn (inner : Inner c) (turn : c.userTurn = true)
    (inside : c.insideImplementation = true) : c.outstanding ≠ [] ∨ c.deferred = true := by
  cases inner with
  | outside none => rw [none] at inside; cases inside
  | running handover rest stack below sync watched => exact watched
  | completing finished cb handover rest stack =>
    rw [Config.userTurn, stack] at turn
    cases turn

theorem outside_of_settled (inner : Inner c) (turn : c.userTurn = true)
    (completed : c.outstanding = []) (notDeferred : c.deferred = false) :
    c.insideImplementation = false := by
  by_contra inside
  rw [Bool.not_eq_false] at inside
  rcases inner.watched_of_turn turn inside with handed | deferred
  · exact handed completed
  · rw [notDeferred] at deferred; cases deferred

end Inner

end IoJs.Stream.Writable
