import IoJs.Stream.Writable.Reentrancy

/-!
# What `'finish'` promises

`end()` sets `ending`, calls `finishMaybe`, and sets `ended` last. The listeners of
`'prefinish'` and `'finish'` that `finishMaybe` calls meanwhile find a stream that
still accepts chunks, but the decision to emit `'finish'` was made before
(`finish_too_early`).
-/

namespace IoJs.Stream.Writable

open IoJs.Library List

variable {Obj : Type} {c c' : Config Obj} {env : Environment} {a : Action Obj}

/-! ## The steps that end and finish the stream -/

/-- What a step does to the phase of the stream. -/
inductive EndStep (c : Config Obj) : Config Obj → Prop where
  | minor {c' : Config Obj} (phase : c'.state.phase = c.state.phase)
      (frames : .finish ∈ c'.stack → .finish ∈ c.stack) : EndStep c c'
  | finishes (rest : List (Frame Obj)) (top : c.stack = .finishMaybe :: rest)
      (need : needFinish c.state = true) (none : c.state.pendingcb = 0) :
      EndStep c (prefinish ({ c with stack := rest }.push .finish))
  | finish (rest : List (Frame Obj)) (top : c.stack = .finish :: rest) :
      EndStep c (finish { c with stack := rest })
  | endFinal (cb : Option Nat) (rest : List (Frame Obj)) (top : c.stack = .endFinal cb :: rest) :
      EndStep c (endWritable { c with stack := rest } cb)
  | endWritable (cb : Option Nat) (rest : List (Frame Obj))
      (top : c.stack = .endWritable cb :: rest) :
      EndStep c (endWritableEnd { c with stack := rest } cb)

theorem Adds.finish_mem (adds : Adds c c') (member : .finish ∈ c'.stack) : .finish ∈ c.stack := by
  obtain ⟨frames, same, minor⟩ := adds.stack
  rw [same] at member
  rcases mem_append.mp member with new | old
  · cases minor _ new
  · exact old

theorem finish_mem_doWriteOne {request : Request Obj}
    (member : .finish ∈ (doWriteOne c request).stack) : .finish ∈ c.stack := by
  simpa [doWriteOne, doWrite] using member

theorem Transition.endStep (moved : Transition env c a c') : EndStep c c' := by
  have below : ∀ {frame rest}, c.stack = frame :: rest → .finish ∈ rest → .finish ∈ c.stack :=
    fun top member => top ▸ mem_cons_of_mem _ member
  have resumed : ∀ {frame rest} {d : Config Obj}, c.stack = frame :: rest →
      Adds { c with stack := rest } d → EndStep c d :=
    fun top adds => .minor adds.phase fun member => below top (adds.finish_mem member)
  have prepare : ∀ {b : Config Obj}, Opened c a b →
      b.state.phase = c.state.phase ∧ (.finish ∈ b.stack → .finish ∈ c.stack) := by
    intro b prepared
    cases prepared with
    | uncork => exact ⟨rfl, id⟩
    | end_ cb rest top => exact ⟨rfl, fun member => below top (by simpa using member)⟩
    | onwrite =>
      exact ⟨rfl, fun member => by simpa [settle] using member⟩
  cases moved with
  | @written _ b _ chunk turn calls passes done =>
    have phase : b.state.phase = c.state.phase := by cases calls <;> rfl
    have frames : .finish ∈ b.stack → .finish ∈ c.stack := by cases calls <;> simp
    cases done with
    | refused er =>
      have adds := Adds.refuse b er
      exact .minor (adds.phase.trans phase) fun member => frames (adds.finish_mem member)
    | threw | buffered =>
      exact .minor phase frames
    | direct =>
      refine .minor phase fun member => frames ?_
      exact finish_mem_doWriteOne member
  | endCalled => exact .minor rfl fun member => by simpa using member
  | cork turn => exact .minor rfl id
  | uncorked => exact .minor rfl id
  | opened prepared => exact .minor (prepare prepared).1 (prepare prepared).2
  | flushed prepared ready done =>
    obtain ⟨phase, frames⟩ := prepare prepared
    cases done with
    | fast =>
      refine .minor phase fun member => frames ?_
      simpa [Writable.clearFast, Writable.doWrite, Config.process] using member
    | slow =>
      refine .minor phase fun member => frames ?_
      simpa [Config.process] using finish_mem_doWriteOne member
    | dangling => exact .minor phase frames
  | failed index handover cb =>
    have adds := Adds.onwriteError (settle c index handover true) c.state.sync cb
    exact .minor adds.phase adds.finish_mem
  | returned code rest top | notYet rest top | endAgain cb rest top => exact resumed top (.refl _)
  | ticked tick rest =>
    have adds := Adds.runTick { c with ticks := rest } tick
    exact .minor adds.phase adds.finish_mem
  | refuse er rest top => exact resumed top (.nextTick _ _ rfl)
  | doWrite rest top | clearFast rest top | clearSlow entry rest top
  | clearDangling entry next rest top => exact resumed top (.set _ rfl rfl)
  | clearNext entry next node rest top =>
    refine .minor rfl fun member => below top ?_
    simpa using finish_mem_doWriteOne member
  | onwriteLater finished cb rest top => exact .minor rfl fun member => below top member
  | onwriteNow finished cb rest top => exact resumed top (.afterWrite _ _ _)
  | afterWrite cb rest top => exact resumed top (.afterWriteEnd _ _)
  | callbacks ids failed rest top => exact resumed top (.callNext _ _ _)
  | onwriteError rest top => exact resumed top (.onwriteErrorEnd _)
  | awaits rest top need => exact resumed top (.prefinish _)
  | finishes rest top need none => exact .finishes rest top need none
  | finish rest top => exact .finish rest top
  | endUncork cb rest top => exact .minor rfl fun member => below top (by simpa using member)
  | endFinal cb rest top => exact .endFinal cb rest top
  | endWritable cb rest top => exact .endWritable cb rest top

/-! ## What an environment may do -/

/-- No hand-over has failed. -/
def failureFree (trace : List (Event Obj)) : Bool :=
  (completions trace).all fun completion => !completion.2

/-- Is `end()` about to set `ending`? -/
def Config.aboutToEnd (c : Config Obj) : Bool :=
  match c.stack with
  | .endFinal _ :: _ => true
  | _ => false

/-- No chunk is accepted while `ending` is set, and no hand-over fails on a stream
that is ended, before or after. -/
structure EndsCleanly (c : Config Obj) (a : Action Obj) : Prop where
  closed : a.accepts c.state = true → c.state.ending = false
  success : c.state.ending = true → a.succeeds = true
  clean : c.aboutToEnd = true → failureFree c.trace = true

instance (c : Config Obj) (a : Action Obj) : Decidable (EndsCleanly c a) :=
  decidable_of_iff
    ((a.accepts c.state = true → c.state.ending = false) ∧
      (c.state.ending = true → a.succeeds = true) ∧
      (c.aboutToEnd = true → failureFree c.trace = true))
    ⟨fun ⟨closed, success, clean⟩ => ⟨closed, success, clean⟩,
      fun ⟨closed, success, clean⟩ => ⟨closed, success, clean⟩⟩

theorem mem_completions {trace : List (Event Obj)} {handover : Handover Obj} {failed : Bool} :
    (handover, failed) ∈ completions trace ↔ .completed handover failed ∈ trace := by
  grind [completions]

/-- A step that ends cleanly keeps a stream that is ended free of failures. -/
theorem failureFree_step
    (clean : c.state.ending = true → failureFree c.trace = true) (polite : EndsCleanly c a)
    (moved : Transition env c a c') :
    c'.state.ending = true → failureFree c'.trace = true := by
  obtain ⟨events, same, logged, -⟩ := moved.logs
  have extend : c.state.ending = true → failureFree c'.trace = true := by
    intro ending
    rw [failureFree, same, completions_append, all_append, Bool.and_eq_true]
    refine ⟨clean ending, List.all_eq_true.mpr ?_⟩
    rintro ⟨handover, failed⟩ member
    cases failed with
    | false => rfl
    | true =>
      obtain ⟨index, rfl⟩ := logged.failed handover (mem_completions.mp member)
      cases polite.success ending
  intro ending
  cases moved.endStep with
  | minor phase => exact extend ((congrArg Prod.fst phase).symm.trans ending)
  | finishes rest top need none =>
    refine extend ?_
    simp only [needFinish, Bool.and_eq_true] at need
    exact need.1.1.1.1
  | finish => exact extend ending
  | endFinal cb rest top => exact polite.clean (by rw [Config.aboutToEnd, top])
  | endWritable =>
    rw [endWritableEnd_state] at ending
    exact extend ending

/-! ## Between the decision to finish and the emission -/

/-- A call that can be above a decision to finish. -/
def Frame.idle : Frame Obj → Bool
  | .user (.implementation _) => false
  | .user _ => true
  | .refuse _ => true
  | .endUncork _ => true
  | .endFinal _ => true
  | _ => false

/-- `finishMaybe` has decided to finish, and has not set `finished`. -/
structure Deciding (c : Config Obj) (above below : List (Frame Obj)) : Prop where
  stack : c.stack = above ++ .finish :: below
  idle : ∀ frame ∈ above, frame.idle = true
  alone : .finish ∉ below
  ending : c.state.ending = true
  open_ : c.state.finished = false
  settled : c.outstanding = []
  empty : c.state.bufferedRequest = none
  done : ∀ request ∈ accepted c.trace, request.id ∈ called c.trace
  silent : .emitted .finish ∉ c.trace

namespace Deciding

variable {c c' : Config Obj} {above above' below : List (Frame Obj)} {a : Action Obj}
variable {env : Environment}

theorem keep (deciding : Deciding c above below)
    (moved : Transition env c a c') (stack : c'.stack = above' ++ .finish :: below)
    (idle : ∀ frame ∈ above', frame.idle = true) (view : c'.queueView = c.queueView)
    (outstanding : c'.outstanding = c.outstanding) (phase : c'.state.phase = c.state.phase)
    (notTop : ∀ rest, c.stack ≠ .finish :: rest) : Deciding c' above' below where
  stack := stack
  idle := idle
  alone := deciding.alone
  ending := (congrArg Prod.fst phase).trans deciding.ending
  open_ := (congrArg (·.2.2) phase).trans deciding.open_
  settled := outstanding.trans deciding.settled
  empty := (congrArg QueueView.first view).trans deciding.empty
  done := by
    obtain ⟨events, same, -, -⟩ := moved.logs
    have taken : accepted c'.trace = accepted c.trace := congrArg QueueView.accepted view
    intro request member
    rw [taken] at member
    rw [same, called_append]
    exact mem_append_left _ (deciding.done request member)
  silent := by
    obtain ⟨events, same, logged, -⟩ := moved.logs
    rw [same]
    intro member
    rcases mem_append.mp member with old | new
    · exact deciding.silent old
    obtain ⟨rest, top⟩ := logged.finish new
    exact notTop rest top

/-- What happens while the running code is above the decision. -/
theorem step_above {frame : Frame Obj} (deciding : Deciding c (frame :: above) below)
    (closed : a.accepts c.state = true → c.state.ending = false)
    (stepped : step env c a = some c') : ∃ above', Deciding c' above' below := by
  have moved := transition_of_step stepped
  have top : c.stack = frame :: (above ++ .finish :: below) := deciding.stack
  have idleTop : ∀ {f rest}, c.stack = f :: rest →
      f.idle = true ∧ rest = above ++ .finish :: below := by
    intro f rest same
    rw [top] at same
    cases same
    exact ⟨deciding.idle frame mem_cons_self, rfl⟩
  have lower : ∀ f ∈ above, f.idle = true :=
    fun f member => deciding.idle f (mem_cons_of_mem _ member)
  have notTop : ∀ rest, c.stack ≠ .finish :: rest := fun rest same => by cases (idleTop same).1
  have refused : a.accepts c.state ≠ true := by
    intro accepts
    rw [deciding.ending] at closed
    cases closed accepts
  have nothing : ∀ (index : Nat) (handover : Handover Obj), c.outstanding[index]? ≠
    some handover := by
    intro index handover found
    rw [deciding.settled] at found
    cases found
  -- the running code makes idle calls, or returns
  have calling : ∀ (frames : List (Frame Obj)), (∀ f ∈ frames, f.idle = true) →
      c'.stack = frames ++ c.stack → c'.queueView = c.queueView →
      c'.outstanding = c.outstanding → c'.state.phase = c.state.phase →
      ∃ above', Deciding c' above' below := by
    intro frames idle stack view outstanding phase
    refine ⟨frames ++ frame :: above, deciding.keep moved ?_ ?_ view outstanding phase notTop⟩
    · rw [stack, deciding.stack, append_assoc]
    intro f member
    exact (mem_append.mp member).elim (idle f) (deciding.idle f)
  have replacing : ∀ {f rest} (frames : List (Frame Obj)), c.stack = f :: rest →
      (∀ g ∈ frames, g.idle = true) → c'.stack = frames ++ rest → c'.queueView = c.queueView →
      c'.outstanding = c.outstanding → c'.state.phase = c.state.phase →
      ∃ above', Deciding c' above' below := by
    intro f rest frames same idle stack view outstanding phase
    refine ⟨frames ++ above, deciding.keep moved ?_ ?_ view outstanding phase notTop⟩
    · simp [stack, (idleTop same).2]
    intro g member
    exact (mem_append.mp member).elim (idle g) (lower g)
  cases moved with
  | @written _ b _ chunk turn calls passes done =>
    have kept := Keeps.calls calls
    obtain ⟨frames, idle, stack, phase⟩ : ∃ frames : List (Frame Obj),
        (∀ f ∈ frames, f.idle = true) ∧ b.stack = frames ++ c.stack ∧
          b.state.phase = c.state.phase := by
      cases calls with
      | write => exact ⟨[], nofun, rfl, rfl⟩
      | end_ chunk encoding cb => exact ⟨[.endUncork cb], by simp [Frame.idle], rfl, rfl⟩
    cases done with
    | refused er =>
      have whole := kept.trans (.refuse b er)
      refine calling (.user (.listeners (.error er)) :: .refuse er :: frames) ?_ ?_
        whole.view whole.outstanding phase
      · simpa [Frame.idle] using idle
      · simp [refuse, stack]
    | threw =>
      have whole := (kept.trans (.charge b)).trans (.log _ rfl rfl : Keeps _ (b.charge.log .threw))
      exact calling frames idle stack whole.view whole.outstanding phase
    | buffered request len number measured open_ valid present
    | direct request len number measured open_ valid present =>
      exact absurd (accepts_of_written calls passes open_ valid present) refused
  | endCalled chunk encoding cb turn =>
    have kept := Keeps.push c (.endUncork cb) rfl
    exact calling [.endUncork cb] (by simp [Frame.idle]) rfl kept.view rfl rfl
  | cork turn | uncorked => exact calling [] nofun rfl rfl rfl rfl
  | opened prepared =>
    have view := queueView_opened prepared
    cases prepared with
    | uncork => exact calling [] nofun rfl view rfl rfl
    | end_ cb rest same =>
      exact replacing [.endFinal cb] same (by simp [Frame.idle]) rfl view rfl rfl
    | onwrite index handover cb turn found kept => exact absurd found (nothing _ _)
  | flushed prepared ready done =>
    obtain ⟨e, first⟩ := Option.isSome_iff_exists.mp ready.buffered
    have same := congrArg QueueView.first (queueView_opened prepared)
    cases (first.symm.trans same).trans deciding.empty
  | failed index handover cb turn found kept => exact absurd found (nothing _ _)
  | returned code rest same | endAgain cb rest same =>
    exact replacing [] same nofun rfl (Keeps.pop same rfl).view rfl rfl
  | ticked tick rest empty => simp [top] at empty
  | refuse er rest same =>
    have kept := (Keeps.pop same rfl).trans (.nextTick _ (.refused er))
    exact replacing [] same nofun rfl kept.view rfl rfl
  | doWrite rest same | clearFast rest same | clearSlow entry rest same
  | clearNext entry next node rest same | clearDangling entry next rest same
  | onwriteLater finished cb rest same | onwriteNow finished cb rest same | afterWrite cb rest same
  | callbacks ids failed rest same | onwriteError rest same | notYet rest same | awaits rest same
  | finishes rest same | finish rest same | endWritable cb rest same =>
    cases (idleTop same).1
  | endUncork cb rest same =>
    have kept := (Keeps.pop same rfl).trans (.push _ (.endFinal cb) rfl)
    exact replacing [.endFinal cb] same (by simp [Frame.idle]) rfl kept.view rfl rfl
  | endFinal cb rest same first => simp [deciding.ending] at first

end Deciding

/-! ## Before, during and after -/

/-- Everything accepted was handed over and completed without error, and its callback
was called. -/
def AllDone (trace : List (Event Obj)) : Prop :=
  ∀ request ∈ accepted trace, request ∈ handed trace ∧ (∃ completion ∈ completions trace,
      request ∈ completion.1.requests ∧ completion.2 = false) ∧
    request.id ∈ called trace

/-- What is before and what is after an emission of `'finish'`. -/
structure Final (before after : List (Event Obj)) : Prop where
  once : .emitted .finish ∉ before ∧ .emitted .finish ∉ after
  done : AllDone before
  nothingAccepted : accepted after = []
  nothingHanded : handed after = []

/-- Every emission of `'finish'` is final. -/
def FinishIsFinal (events : List (Event Obj)) : Prop :=
  ∀ i < events.length, events[i]? = some (.emitted .finish) →
    Final (events.take i) (events.drop (i + 1))

instance [DecidableEq Obj] (trace : List (Event Obj)) : Decidable (AllDone trace) :=
  inferInstanceAs (Decidable (∀ request ∈ accepted trace, _ ∧
    (∃ completion ∈ completions trace, _ ∧ _) ∧ _))

instance [DecidableEq Obj] (before after : List (Event Obj)) : Decidable (Final before after) :=
  decidable_of_iff
    ((.emitted .finish ∉ before ∧ .emitted .finish ∉ after) ∧ AllDone before ∧
      accepted after = [] ∧ handed after = [])
    ⟨fun ⟨once, done, taken, given⟩ => ⟨once, done, taken, given⟩,
      fun ⟨once, done, taken, given⟩ => ⟨once, done, taken, given⟩⟩

instance [DecidableEq Obj] (events : List (Event Obj)) : Decidable (FinishIsFinal events) :=
  inferInstanceAs (Decidable (∀ i < events.length, events[i]? = some (.emitted .finish) →
    Final (events.take i) (events.drop (i + 1))))

/-- The phases of a stream. -/
inductive FinishPhase (c : Config Obj) : Prop where
  | before (undecided : .finish ∉ c.stack) (silent : .emitted .finish ∉ c.trace)
      (open_ : c.state.finished = false)
  | during (above below : List (Frame Obj)) (deciding : Deciding c above below)
  | after (decided : .finish ∉ c.stack) (finished : c.state.finished = true)
      (ending : c.state.ending = true) (before after : List (Event Obj))
      (split : c.trace = before ++ .emitted .finish :: after) (final : Final before after)

/-- What holds of a stream that ends cleanly. -/
structure FinishInv (c : Config Obj) : Prop where
  queue : QueueInv c
  books : Books c
  clean : c.state.ending = true → failureFree c.trace = true
  phase : FinishPhase c

theorem deciding_of_finishes (queue : QueueInv c) (books : Books c)
    {rest : List (Frame Obj)} (top : c.stack = .finishMaybe :: rest)
    (undecided : .finish ∉ c.stack) (silent : .emitted .finish ∉ c.trace)
    (need : needFinish c.state = true) (none : c.state.pendingcb = 0) :
    ∃ above, Deciding (prefinish ({ c with stack := rest }.push .finish)) above rest := by
  simp only [needFinish, Bool.and_eq_true, decide_eq_true_eq, Option.isNone_iff_eq_none,
    Bool.not_eq_true'] at need
  obtain ⟨⟨⟨⟨ending, -⟩, empty⟩, open_⟩, idle⟩ := need
  have settled : c.outstanding = [] := by grind [books.writing_iff.mpr]
  have done : ∀ request ∈ accepted c.trace, request.id ∈ called c.trace := by
    have surplus := books.surplus
    have parts := books.uncalled_length queue
    simp only [Config.surplus, none] at surplus
    have zero : uncalled c.trace = [] := length_eq_zero_iff.mp (by omega)
    intro request member
    by_contra missing
    have contra : request ∈ uncalled c.trace := mem_filter.mpr ⟨member, by simpa using missing⟩
    simp [zero] at contra
  have alone : .finish ∉ rest := fun member => undecided (top ▸ mem_cons_of_mem _ member)
  simp only [prefinish]
  split
  · exact ⟨[], rfl, by simp, alone, ending, open_, settled, empty, done, silent⟩
  refine ⟨[.user (.listeners .prefinish)], rfl, by simp [Frame.idle], alone, ending, open_,
    settled, empty, fun request member => ?_, by simpa using silent⟩
  have member' : request ∈ accepted c.trace := by simpa using member
  simpa using done request member'

theorem Deciding.allDone {above below : List (Frame Obj)}
    (deciding : Deciding c above below) (queue : QueueInv c) (books : Books c)
    (clean : failureFree c.trace = true) : AllDone c.trace := by
  intro request member
  have answered := deciding.done request member
  obtain ⟨request', given, same⟩ := books.mem_handed_of_called answered
  have isRequest := queue.eq_of_id (queue.handed_accepted given) member same
  rw [isRequest] at given
  refine ⟨given, ?_, answered⟩
  have delivered := books.delivered
  rw [deciding.settled, append_nil] at delivered
  rw [delivered, mem_flatMap] at given
  obtain ⟨handover, completed, requested⟩ := given
  obtain ⟨completion, reported, rfl⟩ := List.mem_map.mp completed
  have success := List.all_eq_true.mp clean completion reported
  exact ⟨completion, reported, requested, by simpa using success⟩

namespace FinishInv

variable {env : Environment} {c c' : Config Obj} {a : Action Obj}

theorem new (options : Options) : FinishInv (Config.new options : Config Obj) where
  queue := .new options
  books := .new options
  clean := nofun
  phase := .before nofun nofun rfl

theorem step_of_finish {rest : List (Frame Obj)} (top : c.stack = .finish :: rest)
    (stepped : Writable.step env c a = some c') : c' = finish { c with stack := rest } := by
  cases a <;> simp [Writable.step, Config.userTurn, top, resume] at stepped
  exact stepped.symm

/-- As long as nothing is decided, a step emits no `'finish'`; it may decide on it. -/
theorem before_step (inv : FinishInv c) (stepped : Writable.step env c a = some c')
    (undecided : .finish ∉ c.stack) (silent : .emitted .finish ∉ c.trace)
    (open_ : c.state.finished = false) : FinishPhase c' := by
  have moved := transition_of_step stepped
  have below : ∀ {frame rest}, c.stack = frame :: rest → .finish ∉ rest :=
    fun top member => undecided (top ▸ mem_cons_of_mem _ member)
  have silent' : .emitted .finish ∉ c'.trace := by
    obtain ⟨events, same, logged, -⟩ := moved.logs
    rw [same]
    intro member
    rcases mem_append.mp member with old | new
    · exact silent old
    obtain ⟨rest, top⟩ := logged.finish new
    exact undecided (top ▸ mem_cons_self)
  cases moved.endStep with
  | minor phase frames =>
    exact .before (fun member => undecided (frames member)) silent'
      ((congrArg (·.2.2) phase).trans open_)
  | finishes rest top need none =>
    obtain ⟨above, deciding⟩ :=
      deciding_of_finishes inv.queue inv.books top undecided silent need none
    exact .during above rest deciding
  | finish rest top => exact absurd (top ▸ mem_cons_self) undecided
  | endFinal cb rest top =>
    refine .before ?_ silent' open_
    simpa [Writable.endWritable] using below top
  | endWritable cb rest top =>
    refine .before ?_ silent' (by rw [endWritableEnd_state]; exact open_)
    rw [endWritableEnd_stack]
    exact below top

/-- Behind `'finish'` the trace stays final. -/
theorem after_step (inv : FinishInv c) (queue' : QueueInv c') (polite : EndsCleanly c a)
    (stepped : Writable.step env c a = some c') (decided : .finish ∉ c.stack)
    (finished : c.state.finished = true) (ending : c.state.ending = true)
    {before after : List (Event Obj)} (split : c.trace = before ++ .emitted .finish :: after)
    (final : Final before after) : FinishPhase c' := by
  have moved := transition_of_step stepped
  obtain ⟨events, same, logged, -⟩ := moved.logs
  have silent : .emitted .finish ∉ events := by
    intro member
    obtain ⟨rest, top⟩ := logged.finish member
    exact decided (top ▸ mem_cons_self)
  have refused : a.accepts c.state ≠ true := by
    intro accepts
    simp [polite.closed accepts] at ending
  have taken : accepted c'.trace = accepted c.trace := accepted_step inv.queue.valid refused stepped
  have noneTaken : accepted events = [] := by
    rw [same, accepted_append] at taken
    exact append_right_eq_self.mp taken
  have noneGiven : handed events = [] := by
    refine eq_nil_iff_forall_not_mem.mpr fun request member => ?_
    have distinct := queue'.handed_nodup
    rw [same, handed_append] at distinct
    have accepted' : request ∈ accepted c'.trace := by
      refine queue'.handed_accepted ?_
      rw [same, handed_append]
      exact mem_append_right _ member
    rw [taken, split, accepted_append, mem_append] at accepted'
    have earlier : request ∈ accepted before := by
      rcases accepted' with early | late
      · exact early
      rw [show accepted (.emitted .finish :: after) = accepted after from rfl,
        final.nothingAccepted] at late
      cases late
    have given : request ∈ handed c.trace := by
      rw [split, handed_append]
      exact mem_append_left _ (final.done request earlier).1
    exact (nodup_append.mp distinct).2.2 request given request member rfl
  have split' : c'.trace = before ++ .emitted .finish :: (after ++ events) := by simp [same, split]
  have final' : Final before (after ++ events) := by
    refine ⟨⟨final.once.1, fun member => ?_⟩, final.done, ?_, ?_⟩
    · exact (mem_append.mp member).elim final.once.2 silent
    · simp [accepted_append, final.nothingAccepted, noneTaken]
    · simp [handed_append, final.nothingHanded, noneGiven]
  cases moved.endStep with
  | minor phase frames =>
    exact .after (fun member => decided (frames member))
      ((congrArg (·.2.2) phase).trans finished) ((congrArg Prod.fst phase).trans ending)
      before _ split' final'
  | finishes rest top need none => simp [needFinish, finished] at need
  | finish rest top => exact absurd (top ▸ mem_cons_self) decided
  | endFinal cb rest top =>
    refine .after (fun member => decided ?_) finished rfl before _ split' final'
    simp only [Writable.endWritable, Config.push_stack, Config.set_stack, mem_cons,
      reduceCtorEq, false_or] at member
    exact top ▸ mem_cons_of_mem _ member
  | endWritable cb rest top =>
    refine .after (fun member => decided ?_) (by rw [endWritableEnd_state]; exact finished)
      (by rw [endWritableEnd_state]; exact ending) before _ split' final'
    rw [endWritableEnd_stack] at member
    exact top ▸ mem_cons_of_mem _ member

/-- One step that ends cleanly leads from phase to phase. -/
theorem step (inv : FinishInv c) (polite : EndsCleanly c a)
    (stepped : Writable.step env c a = some c') : FinishInv c' := by
  have moved := transition_of_step stepped
  have queue' := inv.queue.step stepped
  refine ⟨queue', inv.books.step moved, failureFree_step inv.clean polite moved, ?_⟩
  cases inv.phase with
  | before undecided silent open_ => exact inv.before_step stepped undecided silent open_
  | during above below deciding =>
    cases above with
    | nil =>
      have allDone := deciding.allDone inv.queue inv.books (inv.clean deciding.ending)
      rw [step_of_finish deciding.stack stepped]
      refine .after ?_ rfl deciding.ending c.trace [] rfl
        ⟨⟨deciding.silent, nofun⟩, allDone, rfl, rfl⟩
      simpa [finish] using deciding.alone
    | cons =>
      obtain ⟨above', deciding'⟩ := deciding.step_above polite.closed stepped
      exact .during above' below deciding'
  | after decided finished ending before after split final =>
    exact inv.after_step queue' polite stepped decided finished ending split final

end FinishInv

theorem Final.finishIsFinal {before after : List (Event Obj)} (final : Final before after) :
    FinishIsFinal (before ++ .emitted .finish :: after) := by
  intro i _ here
  rcases Nat.lt_trichotomy i before.length with early | same | late
  · rw [List.getElem?_append_left early] at here
    exact absurd (mem_of_getElem? here) final.once.1
  · subst same
    simpa using final
  rw [List.getElem?_append_right late.le] at here
  obtain ⟨k, rest⟩ : ∃ k, i - before.length = k + 1 := ⟨i - before.length - 1, by omega⟩
  rw [rest, List.getElem?_cons_succ] at here
  exact absurd (mem_of_getElem? here) final.once.2

theorem finishIsFinal_of_silent {events : List (Event Obj)} (silent : .emitted .finish ∉ events) :
    FinishIsFinal events :=
  fun _ _ here => absurd (mem_of_getElem? here) silent

/-- **`'finish'` is emitted at most once, when everything accepted has been handed
over and completed and its callback called, and nothing is accepted or handed over
afterwards**, if the stream ends cleanly. -/
theorem finish_is_final {env : Environment} {options : Options} {c : Config Obj}
    (run : Run (step env) EndsCleanly (Config.new options) c) : FinishIsFinal c.trace := by
  have inv : FinishInv c := run.invariant FinishInv (.new options)
    fun inv polite stepped => inv.step polite stepped
  cases inv.phase with
  | before undecided silent => exact finishIsFinal_of_silent silent
  | during above below deciding => exact finishIsFinal_of_silent deciding.silent
  | after decided finished ending before after split final =>
    rw [split]
    exact final.finishIsFinal

/-- `end()` up to the point where it emits `'prefinish'`. -/
def endHistory : List (Action Empty) := [.end_ .null none none, .resume, .resume, .resume]

/-- A stream with one chunk finishes. -/
theorem finish_is_final_after_write :
    ∃ c : Config Empty, .emitted .finish ∈ c.trace ∧ (accepted c.trace).length = 1 ∧
      FinishIsFinal c.trace := by
  obtain ⟨c, run, emitted, one⟩ := Run.exists_of_exec (step plainEnvironment) EndsCleanly
    (Config.new {} : Config Empty)
    (fun c => .emitted .finish ∈ c.trace ∧ (accepted c.trace).length = 1)
    ([.write (byte 1) none, .ret, .resume, .complete 0 false, .resume, .resume, .ret, .resume] ++
      endHistory ++ [.ret, .resume]) (by decide)
  exact ⟨c, emitted, one, finish_is_final run⟩

/-- **`'finish'` is emitted although a chunk was accepted that is not completed**: a
listener of `'prefinish'` writes it. -/
theorem finish_too_early :
    ∃ c : Config Empty, Run (step plainEnvironment) (fun _ _ => True) (Config.new {}) c ∧
      ¬ FinishIsFinal c.trace :=
  Run.exists_of_exec _ _ _ _
    (endHistory ++ [.write (byte 1) none, .ret, .resume,  -- inside the listener
      .ret, .resume]) (by decide)

end IoJs.Stream.Writable
