import IoJs.Library.Runs
import IoJs.Timers.Armed

/-!
# How timers fire

A timer that is armed is in one list, at the end, and the callbacks of a list are called from the
other end on; so they are called in the order in which the timers have been armed. Time does not
run backwards: the loop has read it before it calls a callback, and it looks whether the time of the
first item has come.
-/

namespace IoJs.Timers

open IoJs.Library List

/-- What a loop has read when it began -/
def Phase.began : Phase → Option ℚ
  | .listLoop _ now | .listCallback _ now _ _ | .unrefLoop now | .unrefCallback now _ _ => now
  | .idle => none

/-- The time that the clock is set to -/
def Action.clock : Action → Option ℚ
  | .tick now => now
  | _ => none

/-- Time does not run backwards, and no timeout is taken from the loop. -/
def Steady (s : State) (action : Action) : Prop :=
  action.isUnref = false ∧ ∀ now ∈ action.clock, s.now ≤ now

instance (s : State) (action : Action) : Decidable (Steady s action) :=
  inferInstanceAs (Decidable (action.isUnref = false ∧ ∀ now ∈ action.clock, s.now ≤ now))

/-- What has to be true when an item expires, after the events `before` -/
structure Proper (before : List Event) (list i : Nat) (time : ℚ) (called : Bool) : Prop where
  due : ∃ start msecs n, LastArmed before i list start msecs n ∧ msecs ≤ time - start
  not_dropped : called = true → .cleared i true ∉ before
  in_turn : ∀ ⦃earlier middle j time' called'⦄,
    before = earlier ++ .expired list j time' called' :: middle → Before list earlier j before i

def ProperEvent (before : List Event) : Event → Prop
  | .expired list i time called => Proper before list i time called
  | _ => True

/-- The invariant -/
structure Timely (s : State) (c : Head → List Nat) : Prop where
  recorded : Recorded s c
  began : ∀ now ∈ s.phase.began, now ≤ s.now
  started : ∀ {l i}, i ∈ c (.list l) → (s.items i).idleStart ≤ s.now
  sorted : ∀ l, (c (.list l)).Pairwise fun i j => (s.items i).idleStart ≤ (s.items j).idleStart
  dropped : ∀ {i}, .cleared i true ∈ s.trace → i < s.itemCount ∧ (s.items i).onTimeout = none
  queued : ∀ {before after l i time called}, s.trace = before ++ .expired l i time called :: after →
    ∀ j ∈ c (.list l), Before l before i s.trace j
  always : Always ProperEvent s.trace

variable {s s' : State} {c c' : Head → List Nat} {i list : Nat} {msecs : ℚ} {event : Event}

namespace Timely

theorem linked (timely : Timely s c) : Linked s c := timely.recorded.linked

theorem initial (now : ℚ) : Timely (State.initial now) fun _ => [] where
  recorded := .initial now
  began := by rintro now ⟨⟩
  started := by rintro l i ⟨⟩
  sorted := fun _ => .nil
  dropped := by rintro i ⟨⟩
  queued := by rintro before after l i time called - j ⟨⟩
  always := always_nil _

section

variable (timely : Timely s c)
include timely

theorem same (recorded : Recorded s' c) (clock : s.now ≤ s'.now)
    (began : ∀ now ∈ s'.phase.began, now ≤ s'.now)
    (times : ∀ {h i}, i ∈ c h → (s'.items i).idleStart = (s.items i).idleStart)
    (count : s.itemCount ≤ s'.itemCount)
    (dropped : ∀ {i}, i < s.itemCount → (s.items i).onTimeout = none →
      (s'.items i).onTimeout = none)
    (trace : s'.trace = s.trace) : Timely s' c where
  recorded := recorded
  began := began
  started := by
    intro l i mem
    rw [times mem]
    exact (timely.started mem).trans clock
  sorted := by
    intro l
    refine (timely.sorted l).imp_of_mem fun {i j} mem mem' before => ?_
    rwa [times mem, times mem']
  dropped := by
    intro i mem
    rw [trace] at mem
    obtain ⟨known, gone⟩ := timely.dropped mem
    exact ⟨Nat.lt_of_lt_of_le known count, dropped known gone⟩
  queued := by
    intro before after l i time called split
    rw [trace] at split ⊢
    exact timely.queued split
  always := by
    rw [trace]
    exact timely.always

theorem leave (event : Event) (recorded : Recorded s' (without i c)) (clock : s'.now = s.now)
    (began : ∀ now ∈ s'.phase.began, now ≤ s'.now)
    (times : ∀ {j}, j ≠ i → (s'.items j).idleStart = (s.items j).idleStart)
    (count : s'.itemCount = s.itemCount)
    (dropped : ∀ {j}, (s.items j).onTimeout = none → (s'.items j).onTimeout = none)
    (trace : s'.trace = s.trace ++ [event]) (same : event.item = i)
    (cleared : event = .cleared i true → i < s.itemCount ∧ (s.items i).onTimeout = none)
    (expired : ∀ {l time called}, event = .expired l i time called →
      ∀ j ∈ without i c (.list l), Before l s.trace i s.trace j)
    (proper : ProperEvent s.trace event) : Timely s' (without i c) := by
  have other : ∀ {h j}, j ∈ without i c h → j ≠ i ∧ j ∈ c h := fun mem =>
    (mem_without (timely.linked.holds.nodup _)).mp mem
  refine ⟨recorded, began, ?_, ?_, ?_, ?_, ?_⟩
  · intro l j mem
    rw [times (other mem).1, clock]
    exact timely.started (other mem).2
  · intro l
    refine ((timely.sorted l).sublist erase_sublist).imp_of_mem ?_
    intro j j' mem mem' before
    rwa [times (other mem).1, times (other mem').1]
  · intro j mem
    rw [trace, mem_append, mem_singleton] at mem
    rw [count]
    rcases mem with old | new
    · exact (timely.dropped old).imp_right dropped
    obtain rfl : j = i := by rw [← same, ← new]; rfl
    exact (cleared new.symm).imp_right dropped
  · intro before after l i' time called split j mem
    rw [trace] at split ⊢
    have apart : event.item ≠ j := same ▸ (other mem).1.symm
    rcases snoc_eq_append_cons split with ⟨rfl, rfl⟩ | ⟨after', split'⟩
    · obtain rfl : i' = i := same
      exact (expired rfl j mem).snoc_right apart
    · exact (timely.queued split' j (other mem).2).snoc_right apart
  rw [trace]
  exact timely.always.snoc proper

theorem enter (here : list < s.timerCount) (known : i < s.itemCount)
    (duration : (s.timers list).msecs = msecs) :
    Timely (s.enter i list msecs) (placed i (.list list) c) := by
  refine ⟨timely.recorded.enter here known duration, timely.began, ?_, ?_, ?_, ?_, ?_⟩
  · intro l j mem
    rcases (mem_placed timely.linked.holds).mp mem with ⟨rfl, -⟩ | ⟨other, old⟩
    · rw [State.items_enter_self]
      exact le_refl s.now
    rw [State.items_enter_of_ne other]
    exact timely.started old
  · intro l
    apply pairwise_placed (timely.linked.holds.nodup _) (timely.sorted l)
    · intro j j' other other' before
      rwa [State.items_enter_of_ne other, State.items_enter_of_ne other']
    intro _ j old other
    rw [State.items_enter_self, State.items_enter_of_ne other]
    exact timely.started old
  · intro j mem
    have old : .cleared j true ∈ s.trace := by
      rcases mem_append.mp mem with old | new
      · exact old
      · cases mem_singleton.mp new
    refine (timely.dropped old).imp_right fun gone => ?_
    by_cases same : j = i
    · subst same
      rw [State.items_enter_self]
      exact gone
    · rwa [State.items_enter_of_ne same]
  · intro before after l i' time called split j mem
    obtain ⟨after', split'⟩ : ∃ after', s.trace = before ++ .expired l i' time called :: after' :=
      (snoc_eq_append_cons split).resolve_left (by rintro ⟨-, ⟨⟩⟩)
    rcases (mem_placed timely.linked.holds).mp mem with ⟨rfl, -⟩ | ⟨other, old⟩
    · have short : before.length ≤ s.trace.length := by
        rw [split', length_append]
        exact Nat.le_add_right _ _
      exact before_new short
    · exact (timely.queued split' j old).snoc_right (Ne.symm other)
  · exact timely.always.snoc trivial

theorem makeList (msecs : ℚ) : Timely (s.makeList msecs) c := by
  have ordinary := timely.recorded.ordinary
  have recorded : Recorded (s.makeList msecs) c :=
    timely.recorded.same (timely.linked.makeList msecs) (fun _ => rfl)
      (fun old => by rw [State.timers_makeList_of_ne (Nat.ne_of_lt old)])
      ⟨ordinary.unrefTimer, ordinary.outside, ordinary.no_tick⟩ rfl
  exact timely.same recorded (le_refl _) timely.began (fun _ => rfl) (Nat.le_refl _)
    (fun _ gone => gone) rfl

theorem insert (known : i < s.itemCount) (positive : 0 ≤ msecs) :
    ∃ c', Timely (s.insert i msecs) c' := by
  cases here : s.lists.get msecs with
  | some list =>
    obtain ⟨made, duration⟩ := timely.linked.table here
    rw [State.insert_old positive here]
    exact ⟨_, timely.enter made known duration⟩
  | none =>
    rw [State.insert_new positive here]
    refine ⟨_, (timely.makeList msecs).enter (Nat.lt_succ_self _) known ?_⟩
    rw [State.timers_makeList_self]

theorem active (known : i < s.itemCount) : ∃ c', Timely (s.active i) c' := by
  rw [State.active]
  split_ifs with positive
  · exact timely.insert known positive
  · exact ⟨c, timely⟩

theorem rearm (known : i < s.itemCount) (repeat_ : Option ℚ)
    (positive : ∀ r ∈ repeat_, 1 ≤ r) : ∃ c', Timely (s.rearm i repeat_) c' := by
  obtain same | ⟨r, -, -, nonneg, same⟩ := State.rearm_cases (s := s) (i := i) positive
  · rw [same]
    exact ⟨c, timely⟩
  · rw [same]
    exact timely.insert known nonneg

theorem unenroll (known : i < s.itemCount) : Timely (s.unenroll i) (without i c) := by
  obtain ⟨lists, timers, eq, -⟩ := (s.remove i).stopEmpty_eq (s.items i).idleTimeout
  have recorded := timely.recorded.unenroll i
  have others : ∀ {s' : State} {item : Item} {j}, j ≠ i →
    (s'.setItem i item).items j = s'.items j :=
    fun other => State.items_setItem_of_ne other _ _
  rw [State.unenroll, eq] at recorded ⊢
  refine timely.leave (.cleared i (s.items i).onTimeout.isNone) recorded rfl timely.began
    (fun {j} other => ?_) rfl (fun {j} gone => ?_) rfl rfl (fun same => ⟨known, ?_⟩)
    (by rintro l time called ⟨⟩) trivial
  · simp only [State.log, others other]
    rfl
  · by_cases same : j = i
    · subst same
      simp only [State.log, State.items_setItem_self]
      exact gone
    simp only [State.log, others same]
    exact gone
  injection same with _ dropped
  exact Option.isNone_iff_eq_none.mp dropped

end

theorem kept : Kept fun s => Timely s s.contents where
  linked := Timely.linked
  quiet := by
    intro s s' timely quiet
    rw [quiet.contents]
    refine timely.same (timely.recorded.quiet quiet) quiet.now.ge ?_
      (fun mem => (quiet.times mem).1) quiet.count quiet.dropped quiet.trace
    rw [quiet.phase, quiet.now]
    exact timely.began
  active := by
    intro s i timely known
    obtain ⟨c', after⟩ := timely.active known
    rwa [after.linked.contents_eq]
  unenroll := by
    intro s i timely known
    have after := timely.unenroll known
    rwa [after.linked.contents_eq]

/-! ## Steps -/

variable {now : ℚ} {first : Nat} {rest : List Nat}

theorem proper (timely : Timely s c) (began : now ≤ s.now)
    (contents : c (.list list) = first :: rest)
    (due : (s.timers list).msecs ≤ now - (s.items first).idleStart) {called : Bool}
    (callable : called = true → (s.items first).onTimeout ≠ none) :
    Proper s.trace list first s.now called := by
  have mem : first ∈ c (.list list) := contents ▸ mem_cons_self
  refine ⟨?_, fun calls cleared => ?_, fun earlier middle j time' called' split => ?_⟩
  · obtain ⟨n, last⟩ := timely.recorded.latest mem
    exact ⟨_, _, n, last, due.trans (sub_le_sub_right began _)⟩
  · exact callable calls (timely.dropped cleared).2
  · exact timely.queued split first mem

theorem behind (timely : Timely s c) (contents : c (.list list) = first :: rest) :
    ∀ j ∈ without first c (.list list), Before list s.trace first s.trace j := by
  have order := timely.recorded.order list
  rw [contents, pairwise_cons] at order
  intro j mem
  rw [without, contents, erase_cons_head] at mem
  exact order.1 j mem

theorem looped (timely : Timely s c) (phase : s.phase = .listLoop list now)
    (looped : Looped s list now (c (.list list)) s') : ∃ c', Timely s' c' := by
  have recorded := timely.recorded
  have here : list < s.timerCount := timely.linked.phase list (by rw [phase]; rfl)
  have began : now ≤ s.now := timely.began now (by rw [phase]; rfl)
  cases contents : c (.list list) with
  | nil =>
    rw [contents] at looped
    cases looped with
    | ends =>
      exact ⟨c, timely.same (recorded.ends list _) (le_refl _) (by rintro now ⟨⟩) (fun _ => rfl)
        (Nat.le_refl _) (fun _ gone => gone) rfl⟩
  | cons first rest =>
    have mem : first ∈ c (.list list) := contents ▸ mem_cons_self
    rw [contents] at looped
    cases looped with
    | waits =>
      exact ⟨c, timely.same (recorded.waits list) (le_refl _) (by rintro now ⟨⟩) (fun _ => rfl)
        (Nat.le_refl _) (fun _ gone => gone) rfl⟩
    | skips due =>
      refine ⟨_, timely.leave _ (recorded.skips list first s.now) rfl timely.began (fun _ => rfl)
        rfl id rfl rfl (by rintro ⟨⟩) ?_ ?_⟩
      · rintro l time called ⟨⟩
        exact timely.behind contents
      · exact timely.proper began contents due (by rintro ⟨⟩)
    | calls due callback =>
      refine ⟨_, timely.leave _ (recorded.calls here (timely.linked.known mem) callback now s.now)
        rfl ?_ (fun _ => rfl) rfl id rfl rfl (by rintro ⟨⟩) ?_ ?_⟩
      · rintro now ⟨⟩
        exact began
      · rintro l time called ⟨⟩
        exact timely.behind contents
      refine timely.proper began contents due fun _ => ?_
      rw [callback]
      rintro ⟨⟩

/-- A steady step keeps the invariant. -/
theorem step (timely : Timely s s.contents) {action : Action} (steady : Steady s action)
    (stepped : s.step action = some s') : Timely s' s'.contents := by
  by_cases call : action.isCall = true
  · exact kept.call timely call stepped
  have recorded := timely.recorded
  suffices ∃ c, Timely s' c by
    obtain ⟨c, after⟩ := this
    rwa [after.linked.contents_eq]
  cases timely.linked.turn (Bool.eq_false_iff.mpr call) stepped with
  | @tick now clock =>
    have later : s.now ≤ now := steady.2 now rfl
    exact ⟨_, timely.same (recorded.ticks now) later
      (fun began mem => (timely.began began mem).trans later) (fun _ => rfl) (Nat.le_refl _)
        (fun _ gone => gone) rfl⟩
  | unrefActive => cases steady.1
  | @returns list first now repeat_ phase =>
    obtain ⟨c', after⟩ := timely.rearm (timely.linked.first first (by rw [phase]; rfl))
      repeat_ (fun r mem => timely.linked.repeats r (by rw [phase]; exact mem))
    have still := (s.phase_rearm first repeat_).trans phase
    refine ⟨c', after.same (after.recorded.returned still) (le_refl _) ?_ (fun _ => rfl)
      (Nat.le_refl _) (fun _ gone => gone) rfl⟩
    rintro now ⟨⟩
    exact after.began _ (by rw [still]; rfl)
  | returnsUnref phase | throwsUnref phase | unrefLoop phase =>
    exact (recorded.ordinary.not_unref phase rfl).elim
  | throws phase =>
    exact ⟨_, timely.same (recorded.thrown phase) (le_refl _) (by rintro now ⟨⟩) (fun _ => rfl)
      (Nat.le_refl _) (fun _ gone => gone) rfl⟩
  | loop phase looped => exact timely.looped phase looped
  | fire phase here =>
    exact ⟨_, timely.same (recorded.fired here) (le_refl _) (by rintro now ⟨⟩; exact le_refl _)
      (fun _ => rfl) (Nat.le_refl _) (fun _ gone => gone) rfl⟩
  | fireUnref phase timer =>
    rw [recorded.ordinary.unrefTimer] at timer
    cases timer
  | retry phase mem =>
    exact ⟨_, timely.same (recorded.retried mem) (le_refl _) (by rintro now ⟨⟩; exact le_refl _)
      (fun _ => rfl) (Nat.le_refl _) (fun _ gone => gone) rfl⟩
  | retryUnref phase some_ => exact absurd recorded.ordinary.no_tick some_

end Timely

/-- **How timers fire.**  In every run in which time does not run backwards:

* a callback is called once for an arming of its timer, if nothing has happened to the timer since,
  when its time has come, and never when it has been dropped before;
* the items of a list expire in the order in which they have been armed;
* a list is sorted by the times at which its items have been armed. -/
theorem firing_discipline {now : ℚ} (run : Run State.step Steady (State.initial now) s) :
    (∀ before after list i time, s.trace = before ++ .expired list i time true :: after →
      (∃ start msecs n, LastArmed before i list start msecs n ∧ msecs ≤ time - start) ∧
        .cleared i true ∉ before) ∧
      (∀ before middle after list i j time time' called called',
        s.trace = (before ++ .expired list i time called :: middle) ++
          .expired list j time' called' :: after →
        ∀ start msecs n start' msecs' n', LastArmed before i list start msecs n →
          LastArmed (before ++ .expired list i time called :: middle) j list start' msecs' n' →
            n < n') ∧
        ∀ list, (s.contents (.list list)).Pairwise fun i j =>
          (s.items i).idleStart ≤ (s.items j).idleStart := by
  have start : Timely (State.initial now) (State.initial now).contents := by
    exact .initial now
  have timely := run.invariant (fun s => Timely s s.contents) start
    fun timely steady stepped => timely.step steady stepped
  refine ⟨?_, ?_, timely.sorted⟩
  · intro before after list i time split
    have proper : Proper before list i time true := timely.always split
    exact ⟨proper.due, proper.not_dropped rfl⟩
  · intro before middle after list i j time time' called called' split
    have proper : Proper _ list j time' called' := timely.always split
    intro start msecs n start' msecs' n' last last'
    exact proper.in_turn rfl last last'

/-- Two timeouts of one list are called in one loop. -/
theorem firing_discipline_two :
    ∃ s : State, s.trace = [.armed 0 0 0 10, .armed 1 0 2 10, .expired 0 0 12 true] ++
        .expired 0 1 12 true :: [] ∧
      ∃ start msecs n, LastArmed [.armed 0 0 0 10, .armed 1 0 2 10, .expired 0 0 12 true] 1 0
        start msecs n ∧ msecs ≤ 12 - start := by
  obtain ⟨s, run, trace⟩ := Run.exists_of_exec State.step Steady (State.initial 0)
    (fun s => s.trace = [.armed 0 0 0 10, .armed 1 0 2 10, .expired 0 0 12 true] ++
      .expired 0 1 12 true :: [])
    [.setTimeout (some 10) true, .tick 2, .setTimeout (some 10) true, .tick 12, .fire 0, .advance,
      .returns, .advance]
    (by decide +kernel)
  exact ⟨s, trace, ((firing_discipline run).1 _ [] 0 1 12 trace).1⟩

end IoJs.Timers
