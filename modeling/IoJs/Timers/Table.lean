import IoJs.Library.Runs
import IoJs.Timers.Armed

/-!
# The table of lists

`lists` should have a list of a duration if and only if an item is armed for it. What empties a list
drops its duration from the table, without a look at the list that the table has: after a callback
it may be a new one, with an item in it (`dropped_list`). In the runs where this does not happen,
and where no list that has become empty is left behind, the table is right whenever no loop of
`listOnTimeout` is running (`table_agrees`).
-/

namespace IoJs.Timers

open IoJs.Library List Option

/-- The table has the lists of the items that are armed, and these lists are open. -/
structure TableAgrees (s : State) : Prop where
  exactly : ∀ msecs, (s.lists.get msecs).isSome = true ↔
    ∃ i, Armed s.trace i ∧ (s.items i).idleTimeout = msecs
  present : ∀ i, Armed s.trace i →
    ∃ list, s.lists.get (s.items i).idleTimeout = some list ∧ i ∈ s.contents (.list list)
  open_ : ∀ msecs list, s.lists.get msecs = some list → (s.timers list).isOpen = true
  kept : ∀ list, s.contents (.list list) ≠ [] →
    (s.timers list).isOpen = true ∧ s.lists.get (s.timers list).msecs = some list

/-- The steps after which the table is right -/
structure Careful (s : State) (action : Action) : Prop where
  ordinary : action.isUnref = false
  /-- A loop over an empty list ends: the table has no other list of the duration. -/
  ends : action = .advance → ∀ list ∈ s.phase.list, s.contents (.list list) = [] →
    s.lists.get (s.timers list).msecs = none ∨ s.lists.get (s.timers list).msecs = some list
  /-- A callback throws: its list is not empty, or the table does not have it any more. -/
  throws : action = .throws → ∀ list ∈ s.phase.list, s.contents (.list list) = [] →
    s.lists.get (s.timers list).msecs ≠ some list
  /-- An interval starts again: it is not the only item of a list of another duration. -/
  returns : action = .returns → ∀ first ∈ s.phase.first, ∀ repeat_ ∈ s.phase.repeats,
    (s.items first).repeat_ = true → ∀ list < s.timerCount, s.contents (.list list) = [first] →
        s.phase.list = some list ∨ (s.timers list).msecs = repeat_

/-- The lists that `spare` allows to be empty may be in the table without an item. -/
structure Tabled (spare : Nat → Prop) (s : State) (c : Head → List Nat) : Prop where
  recorded : Recorded s c
  table : ∀ {msecs l}, s.lists.get msecs = some l →
    (s.timers l).isOpen = true ∧ (c (.list l) ≠ [] ∨ spare l)
  held : ∀ {l i}, i ∈ c (.list l) →
    s.lists.get (s.timers l).msecs = some l ∧ (s.items i).idleTimeout = (s.timers l).msecs

/-- The list that is being worked on may be empty. -/
def State.spare (s : State) (list : Nat) : Prop := s.phase.list = some list

variable {s s' : State} {c c' : Head → List Nat} {spare spare' : Nat → Prop} {i list : Nat}
  {msecs : ℚ}

theorem eq_singleton_of_erase {items : List Nat} (some_ : items ≠ []) (none_ : items.erase i = []) :
    items = [i] := by
  rcases erase_eq_nil_iff.mp none_ with nil | single
  · exact absurd nil some_
  · exact single

namespace Tabled

theorem linked (tabled : Tabled spare s c) : Linked s c := tabled.recorded.linked

theorem initial (now : ℚ) : Tabled spare (State.initial now) fun _ => [] where
  recorded := .initial now
  table := by rintro msecs l ⟨⟩
  held := by rintro l i ⟨⟩

section

variable (tabled : Tabled spare s c)
include tabled

theorem mono (weaken : ∀ {l}, spare l → spare' l) : Tabled spare' s c :=
  ⟨tabled.recorded, fun here => (tabled.table here).imp_right (Or.imp_right weaken), tabled.held⟩

theorem same (recorded : Recorded s' c)
    (times : ∀ {h i}, i ∈ c h → (s'.items i).idleTimeout = (s.items i).idleTimeout)
    (timers : ∀ {l}, l < s.timerCount → (s'.timers l).msecs = (s.timers l).msecs ∧
      (s'.timers l).isOpen = (s.timers l).isOpen)
    (lists : s'.lists = s.lists) : Tabled spare s' c where
  recorded := recorded
  table := by
    intro msecs l here
    rw [lists] at here
    rw [(timers (tabled.linked.table here).1).2]
    exact tabled.table here
  held := by
    intro l i mem
    have made : l < s.timerCount := tabled.linked.holds.made_of_mem mem
    rw [lists, (timers made).1, times mem]
    exact tabled.held mem

theorem enter (known : i < s.itemCount) (here : s.lists.get msecs = some list)
    (alone : ∀ l, c (.list l) = [i] → spare l ∨ l = list)
    (weaken : ∀ {l}, spare l → spare' l ∨ l = list) :
    Tabled spare' (s.enter i list msecs) (placed i (.list list) c) := by
  obtain ⟨made, duration⟩ := tabled.linked.table here
  refine ⟨tabled.recorded.enter made known duration, ?_, ?_⟩
  · intro m l there
    have old : s.lists.get m = some l := there
    obtain ⟨open_, some_⟩ := tabled.table old
    refine ⟨open_, ?_⟩
    by_cases same : l = list
    · subst same
      exact .inl (ne_nil_of_mem ((mem_placed tabled.linked.holds).mpr (.inl ⟨rfl, rfl⟩)))
    rw [placed_of_ne (fun eq => same (Head.list.inj eq))]
    rcases some_ with some_ | spared
    · by_cases none_ : (c (.list l)).erase i = []
      · have single := eq_singleton_of_erase some_ none_
        have spared := (alone l single).resolve_right same
        exact .inr ((weaken spared).resolve_right same)
      · exact .inl none_
    · exact .inr ((weaken spared).resolve_right same)
  intro l j mem
  rcases (mem_placed tabled.linked.holds).mp mem with ⟨rfl, same⟩ | ⟨other, old⟩
  · cases same
    rw [State.items_enter_self]
    exact ⟨(congrArg s.lists.get duration).trans here, duration.symm⟩
  rw [State.items_enter_of_ne other]
  exact tabled.held old

theorem makeList (none_ : s.lists.get msecs = none) :
    Tabled (fun l => spare l ∨ l = s.timerCount) (s.makeList msecs) c := by
  have timers : ∀ {l}, l < s.timerCount → (s.makeList msecs).timers l = s.timers l := fun old =>
    State.timers_makeList_of_ne (Nat.ne_of_lt old) msecs
  refine ⟨?_, ?_, ?_⟩
  · exact tabled.recorded.same (tabled.linked.makeList msecs) (fun _ => rfl)
      (fun old => by rw [timers old])
      ⟨tabled.recorded.ordinary.unrefTimer, tabled.recorded.ordinary.outside,
        tabled.recorded.ordinary.no_tick⟩ rfl
  · intro m l here
    rw [State.makeList, Properties.get_set] at here
    split_ifs at here with same
    · grind [State.timers_makeList_self]
    rw [timers (tabled.linked.table here).1]
    exact (tabled.table here).imp_right (Or.imp_right .inl)
  intro l j mem
  have old : l < s.timerCount := tabled.linked.holds.made_of_mem mem
  obtain ⟨here, timeout⟩ := tabled.held mem
  rw [timers old]
  refine ⟨?_, timeout⟩
  rw [State.makeList, Properties.get_set_of_ne]
  · exact here
  intro same
  simp [same, none_] at here

theorem insert (known : i < s.itemCount) (positive : 0 ≤ msecs)
    (alone : ∀ l, c (.list l) = [i] → spare l ∨ (s.timers l).msecs = msecs) :
    ∃ c', Tabled spare (s.insert i msecs) c' := by
  have in_table : ∀ l, c (.list l) = [i] → spare l ∨ s.lists.get msecs = some l := by
    intro l single
    refine (alone l single).imp_right fun duration => ?_
    rw [← duration]
    exact (tabled.held (i := i) (single ▸ mem_cons_self)).1
  cases here : s.lists.get msecs with
  | some list =>
    rw [State.insert_old positive here]
    refine ⟨_, tabled.enter known here (fun l single => ?_) .inl⟩
    refine (in_table l single).imp_right fun there => ?_
    rw [here] at there
    exact (some.inj there).symm
  | none =>
    rw [State.insert_new positive here]
    refine ⟨_, (tabled.makeList here).enter known ?_ (fun l single => ?_) id⟩
    · exact Properties.get_set_self
    refine .inl (.inl ((in_table l single).resolve_right ?_))
    rw [here]
    rintro ⟨⟩

theorem active (known : i < s.itemCount) : ∃ c', Tabled spare (s.active i) c' := by
  rw [State.active]
  split_ifs with positive
  · refine tabled.insert known positive fun l single => .inr ?_
    exact (tabled.held (i := i) (single ▸ mem_cons_self)).2.symm
  · exact ⟨c, tabled⟩

theorem leave (recorded : Recorded s' (without i c)) (alone : ∀ l, c (.list l) = [i] → spare l)
    (times : ∀ {j}, j ≠ i → (s'.items j).idleTimeout = (s.items j).idleTimeout)
    (timers : s'.timers = s.timers) (lists : s'.lists = s.lists) :
    Tabled spare s' (without i c) where
  recorded := recorded
  table := by
    intro m l here
    rw [lists] at here
    rw [timers]
    obtain ⟨open_, some_⟩ := tabled.table here
    refine ⟨open_, some_.elim (fun some_ => ?_) .inr⟩
    by_cases none_ : without i c (.list l) = []
    · exact .inr (alone l (eq_singleton_of_erase some_ none_))
    · exact .inl none_
  held := by
    intro l j mem
    obtain ⟨other, old⟩ := (mem_without (tabled.linked.holds.nodup _)).mp mem
    rw [lists, timers, times other]
    exact tabled.held old

theorem close (list : Nat) (recorded : Recorded s' c')
    (empty : c' (.list list) = []) (sub : ∀ {l j}, j ∈ c' (.list l) → j ∈ c (.list l))
    (dropped : ∀ l, s.lists.get (s.timers list).msecs = some l → l = list)
    (others : ∀ l, (s.timers l).msecs ≠ (s.timers list).msecs → c (.list l) ≠ [] ∨ spare l →
      c' (.list l) ≠ [] ∨ spare' l)
    (times : ∀ {l j}, j ∈ c' (.list l) → (s'.items j).idleTimeout = (s.items j).idleTimeout)
    (timers : s'.timers = (s.closeTimer list).timers)
    (lists : s'.lists = s.lists.delete (s.timers list).msecs) : Tabled spare' s' c' := by
  have timers_of_ne : ∀ {l}, l ≠ list → s'.timers l = s.timers l := by
    intro l other
    rw [timers]
    exact State.timers_setTimer_of_ne other _ _
  refine ⟨recorded, ?_, ?_⟩
  · intro m l here
    rw [lists, Properties.get_delete] at here
    split_ifs at here with same
    obtain ⟨-, duration⟩ := tabled.linked.table here
    have other_duration : (s.timers l).msecs ≠ (s.timers list).msecs := duration ▸ same
    have other : l ≠ list := fun eq => other_duration (congrArg (fun l => (s.timers l).msecs) eq)
    rw [timers_of_ne other]
    exact (tabled.table here).imp_right (others l other_duration)
  intro l j mem
  have other : l ≠ list := by grind
  obtain ⟨here, timeout⟩ := tabled.held (sub mem)
  rw [timers_of_ne other, times mem, lists, Properties.get_delete_of_ne]
  · exact ⟨here, timeout⟩
  intro same
  rw [same] at here
  exact other (dropped l here)

theorem unenroll (i : Nat) : Tabled spare (s.unenroll i) (without i c) := by
  have recorded := tabled.recorded.unenroll i
  have others : ∀ {s' : State} {item : Item} {j}, j ≠ i →
    (s'.setItem i item).items j = s'.items j :=
    fun other => State.items_setItem_of_ne other _ _
  have single : ∀ l, c (.list l) = [i] → s.lists.get (s.items i).idleTimeout = some l ∧
        (s.items i).idleTimeout = (s.timers l).msecs := by
    intro l single
    obtain ⟨here, timeout⟩ := tabled.held (i := i) (single ▸ mem_cons_self)
    exact ⟨timeout ▸ here, timeout⟩
  rw [State.unenroll, State.stopEmpty] at recorded ⊢
  have table_eq : (s.remove i).lists = s.lists := rfl
  cases here : s.lists.get (s.items i).idleTimeout with
  | none =>
    simp only [table_eq, here] at recorded ⊢
    refine tabled.leave recorded (fun l alone => ?_) (fun other => ?_) rfl rfl
    · simp [(single l alone).1] at here
    simp only [State.log, others other]
    rfl
  | some list =>
    obtain ⟨made, duration⟩ := tabled.linked.table here
    have isEmpty_iff := (tabled.linked.remove i).holds.isEmpty_iff (h := .list list) made
    simp only [table_eq, here] at recorded ⊢
    by_cases empty : without i c (.list list) = []
    · rw [if_pos (isEmpty_iff.mpr empty)] at recorded ⊢
      refine tabled.close list recorded empty (fun mem => mem_of_mem_erase mem) ?_ ?_
        ?_ rfl ?_
      · simp [duration, here]
      · intro l other
        refine Or.imp_left fun some_ none_ => other ?_
        rw [← (single l (eq_singleton_of_erase some_ none_)).2, duration]
      · intro l j mem
        have other := ((mem_without (tabled.linked.holds.nodup _)).mp mem).1
        simp only [State.log, others other]
        rfl
      rw [duration]
      rfl
    rw [if_neg (mt isEmpty_iff.mp empty)] at recorded ⊢
    refine tabled.leave recorded (fun l alone => ?_) (fun other => ?_) rfl rfl
    · have same := (single l alone).1
      rw [here] at same
      cases same
      refine absurd ?_ empty
      simp [without, alone]
    simp only [State.log, others other]
    rfl

end

/-! ## Steps -/

theorem isOpen_setTimer (timer : Timer) (same : timer.isOpen = (s.timers list).isOpen) (l : Nat) :
    ((s.setTimer list timer).timers l).isOpen = (s.timers l).isOpen := by
  by_cases eq : l = list
  · rw [eq, State.timers_setTimer_self, same]
  · rw [State.timers_setTimer_of_ne eq]

theorem looped (tabled : Tabled s.spare s c) {now : ℚ} (phase : s.phase = .listLoop list now)
    (careful : c (.list list) = [] → s.lists.get (s.timers list).msecs = none ∨
      s.lists.get (s.timers list).msecs = some list)
    (looped : Looped s list now (c (.list list)) s') : ∃ c', Tabled s'.spare s' c' := by
  have recorded := tabled.recorded
  have here : list < s.timerCount := tabled.linked.phase list (by rw [phase]; rfl)
  have spare_iff : ∀ {l}, s.spare l ↔ list = l := by
    intro l
    rw [State.spare, phase]
    exact some_inj
  cases contents : c (.list list) with
  | nil =>
    rw [contents] at looped
    cases looped with
    | ends =>
      refine ⟨c, tabled.close list (recorded.ends list _) contents id ?_ ?_ (fun _ => rfl) rfl rfl⟩
      · intro l there
        rcases careful contents with none_ | same
        · simp [none_] at there
        · grind
      · grind
  | cons first rest =>
    have mem : first ∈ c (.list list) := contents ▸ mem_cons_self
    -- The item has been in this list only, which is the one that may be empty.
    have alone : ∀ l, c (.list l) = [first] → s.spare l := by
      intro l single
      refine spare_iff.mpr (Head.list.inj ?_)
      exact tabled.linked.holds.alone mem (single ▸ mem_cons_self)
    rw [contents] at looped
    cases looped with
    | waits =>
      refine ⟨c, ⟨recorded.waits list, fun {m l} there => ?_, fun {l j} mem => ?_⟩⟩
      · have old : s.lists.get m = some l := there
        obtain ⟨open_, some_⟩ := tabled.table old
        refine ⟨(isOpen_setTimer { s.timers list with isArmed := true } rfl l).trans open_,
          .inl (some_.elim id fun spared => ?_)⟩
        rw [← spare_iff.mp spared]
        exact ne_nil_of_mem (contents ▸ mem_cons_self)
      have duration : ((s.startTimer list).timers l).msecs = (s.timers l).msecs :=
        State.msecs_setTimer { s.timers list with isArmed := true } rfl l
      obtain ⟨there, timeout⟩ := tabled.held mem
      refine ⟨?_, timeout.trans duration.symm⟩
      exact (congrArg s.lists.get duration).trans there
    | skips =>
      have left := tabled.leave (recorded.skips list first s.now) alone (fun _ => rfl) rfl rfl
      exact ⟨_, left⟩
    | calls due callback =>
      have called := recorded.calls here (tabled.linked.known mem) callback now s.now
      refine ⟨_, (tabled.leave called alone (fun _ => rfl) rfl rfl).mono fun spared => ?_⟩
      exact congrArg some (spare_iff.mp spared)

theorem kept : Kept fun s => Tabled s.spare s s.contents where
  linked := Tabled.linked
  quiet := by
    intro s s' tabled quiet
    have same := tabled.same (tabled.recorded.quiet quiet) (fun mem => (quiet.times mem).2)
      (fun {l} _ => by rw [quiet.timers]; exact ⟨rfl, rfl⟩) quiet.lists
    rw [quiet.contents]
    refine same.mono fun spared => ?_
    rwa [State.spare, quiet.phase]
  active := by
    intro s i tabled known
    obtain ⟨c', after⟩ := tabled.active known
    rw [after.linked.contents_eq]
    refine after.mono fun spared => ?_
    rwa [State.spare, State.phase_active]
  unenroll := by
    intro s i tabled _
    have after := tabled.unenroll i
    rw [after.linked.contents_eq]
    refine after.mono fun spared => ?_
    obtain ⟨lists, timers, eq, -⟩ := (s.remove i).stopEmpty_eq (s.items i).idleTimeout
    rw [State.spare, State.unenroll, eq]
    exact spared

theorem rearm (tabled : Tabled spare s c) (known : i < s.itemCount) {repeat_ : Option ℚ}
    (positive : ∀ r ∈ repeat_, 1 ≤ r)
    (alone : ∀ r ∈ repeat_, (s.items i).repeat_ = true → ∀ l, c (.list l) = [i] →
      spare l ∨ (s.timers l).msecs = r) : ∃ c', Tabled spare (s.rearm i repeat_) c' := by
  obtain same | ⟨r, mem, again, nonneg, same⟩ := State.rearm_cases (s := s) (i := i) positive
  · rw [same]
    exact ⟨c, tabled⟩
  · rw [same]
    exact tabled.insert known nonneg (alone r mem again)

/-- A careful step keeps the table. -/
theorem step (tabled : Tabled s.spare s s.contents) {action : Action}
    (careful : Careful s action) (stepped : s.step action = some s') :
    Tabled s'.spare s' s'.contents := by
  by_cases call : action.isCall = true
  · exact kept.call tabled call stepped
  have recorded := tabled.recorded
  suffices ∃ c, Tabled s'.spare s' c by
    obtain ⟨c, after⟩ := this
    rwa [after.linked.contents_eq]
  cases tabled.linked.turn (Bool.eq_false_iff.mpr call) stepped with
  | tick => exact ⟨_, tabled.same (recorded.ticks _) (fun _ => rfl) (fun _ => ⟨rfl, rfl⟩) rfl⟩
  | unrefActive => cases careful.ordinary
  | @returns list first now repeat_ phase =>
    have first_mem : first ∈ s.phase.first := by rw [phase]; rfl
    have repeats : ∀ r ∈ repeat_, r ∈ s.phase.repeats := by
      intro r mem
      rw [phase]
      exact mem
    obtain ⟨c', after⟩ := tabled.rearm (tabled.linked.first first first_mem)
      (fun r mem => tabled.linked.repeats r (repeats r mem)) fun r mem again l single =>
        careful.returns rfl first first_mem r (repeats r mem) again l
          (tabled.linked.holds.made_of_mem (h := .list l) (single ▸ mem_cons_self)) single
    have still := (s.phase_rearm first repeat_).trans phase
    have returned := after.same (after.recorded.returned still) (fun _ => rfl)
      (fun _ => ⟨rfl, rfl⟩) rfl
    refine ⟨c', returned.mono fun spared => ?_⟩
    rwa [State.spare, phase] at spared
  | returnsUnref phase | throwsUnref phase | unrefLoop phase =>
    exact (recorded.ordinary.not_unref phase rfl).elim
  | @throws list first now repeat_ phase =>
    have list_mem : list ∈ s.phase.list := by rw [phase]; rfl
    refine ⟨_, recorded.thrown phase, fun {m l} there => ?_, tabled.held⟩
    have old : s.lists.get m = some l := there
    obtain ⟨open_, some_⟩ := tabled.table old
    refine ⟨open_, .inl (some_.elim id fun spared none_ => ?_)⟩
    have same : list = l := by
      rw [State.spare, phase] at spared
      exact some.inj spared
    subst same
    have left_behind := careful.throws rfl list list_mem none_
    rw [(tabled.linked.table there).2] at left_behind
    exact left_behind there
  | @loop list now _ phase looped =>
    have list_mem : list ∈ s.phase.list := by rw [phase]; rfl
    exact tabled.looped phase (careful.ends rfl list list_mem) looped
  | @fire list phase here open_ armed =>
    have fired := tabled.same (recorded.fired here) (fun _ => rfl) (fun {l} _ =>
      ⟨State.msecs_setTimer { s.timers list with isArmed := false } rfl l,
        isOpen_setTimer { s.timers list with isArmed := false } rfl l⟩) rfl
    refine ⟨_, fired.mono fun spared => ?_⟩
    rw [State.spare, phase] at spared
    cases spared
  | fireUnref phase timer => simp [recorded.ordinary.unrefTimer] at timer
  | retry phase mem =>
    have retried := tabled.same (recorded.retried mem) (fun _ => rfl) (fun _ => ⟨rfl, rfl⟩) rfl
    refine ⟨_, retried.mono fun spared => ?_⟩
    rw [State.spare, phase] at spared
    cases spared
  | retryUnref phase some_ => exact absurd recorded.ordinary.no_tick some_

end Tabled

/-- Outside of its loops, the table agrees with the lists. -/
theorem Tabled.agrees (tabled : Tabled s.spare s s.contents) (outside : s.phase.list = none) :
    TableAgrees s := by
  have some_ : ∀ {msecs l}, s.lists.get msecs = some l →
      (s.timers l).isOpen = true ∧ s.contents (.list l) ≠ [] := by
    intro msecs l here
    refine (tabled.table here).imp_right fun some_ => some_.resolve_right ?_
    rw [State.spare, outside]
    rintro ⟨⟩
  have present : ∀ i, Armed s.trace i →
      ∃ l, s.lists.get (s.items i).idleTimeout = some l ∧ i ∈ s.contents (.list l) := by
    intro i armed
    obtain ⟨l, mem⟩ := tabled.recorded.armed_iff.mp armed
    obtain ⟨here, timeout⟩ := tabled.held mem
    exact ⟨l, timeout ▸ here, mem⟩
  refine ⟨fun msecs => ⟨fun isSome => ?_, ?_⟩, present, fun msecs l here => (some_ here).1, ?_⟩
  · obtain ⟨l, here⟩ := isSome_iff_exists.mp isSome
    obtain ⟨i, mem⟩ := exists_mem_of_ne_nil _ (some_ here).2
    refine ⟨i, tabled.recorded.armed_iff.mpr ⟨l, mem⟩, ?_⟩
    rw [(tabled.held mem).2, (tabled.linked.table here).2]
  · rintro ⟨i, armed, rfl⟩
    obtain ⟨l, here, -⟩ := present i armed
    rw [here]
    rfl
  intro l items
  obtain ⟨i, mem⟩ := exists_mem_of_ne_nil _ items
  obtain ⟨here, -⟩ := tabled.held mem
  exact ⟨(some_ here).1, here⟩

/-- **The table of lists.**  If all steps are careful, then whenever no loop of `listOnTimeout` is
running, the table has the lists of the items that are armed. -/
theorem table_agrees {now : ℚ} (run : Run State.step Careful (State.initial now) s)
    (outside : s.phase.list = none) : TableAgrees s := by
  have start : Tabled (State.initial now).spare (State.initial now)
    (State.initial now).contents := by
    exact .initial now
  have tabled := run.invariant (fun s => Tabled s.spare s s.contents) start
    fun tabled careful stepped => tabled.step careful stepped
  exact tabled.agrees outside

set_option synthInstance.maxSize 512 in
instance (s : State) (action : Action) : Decidable (Careful s action) :=
  decidable_of_iff
    (action.isUnref = false ∧
      (action = .advance → ∀ list ∈ s.phase.list, s.contents (.list list) = [] →
        s.lists.get (s.timers list).msecs = none ∨ s.lists.get (s.timers list).msecs = some list) ∧
      (action = .throws → ∀ list ∈ s.phase.list, s.contents (.list list) = [] →
        s.lists.get (s.timers list).msecs ≠ some list) ∧
      (action = .returns → ∀ first ∈ s.phase.first, ∀ repeat_ ∈ s.phase.repeats,
        (s.items first).repeat_ = true → ∀ list < s.timerCount, s.contents (.list list) = [first] →
            s.phase.list = some list ∨ (s.timers list).msecs = repeat_))
    ⟨fun all => ⟨all.1, all.2.1, all.2.2.1, all.2.2.2⟩,
      fun careful => ⟨careful.ordinary, careful.ends, careful.throws, careful.returns⟩⟩

/-- An interval and a timeout, which throws; the list goes on in a later tick. -/
theorem table_agrees_retry : ∃ s : State, s.contents (.list 0) = [2, 0] ∧ TableAgrees s := by
  obtain ⟨s, run, items, idle⟩ := Run.exists_of_exec State.step Careful (State.initial 0)
    (fun s => s.contents (.list 0) = [2, 0] ∧ s.phase = .idle)
    [.setInterval (some 10), .setTimeout (some 10) true, .tick 5, .setTimeout (some 10) true,
      .tick 10, .fire 0, .advance, .returns, .advance, .throws]
    (by decide +kernel)
  exact ⟨s, items, table_agrees run (by rw [idle]; rfl)⟩

/-- The callback of a timeout clears it, and sets another one of the same duration: the list of the
new one is dropped from the table. -/
theorem dropped_list : ¬∀ (now : ℚ) (s : State),
    Run State.step (fun _ action => action.isUnref = false) (State.initial now) s →
      s.phase.list = none → TableAgrees s := by
  intro all
  obtain ⟨s, run, items, gone, idle⟩ := Run.exists_of_exec State.step
    (fun _ action => action.isUnref = false) (State.initial 0)
    (fun s => s.contents (.list 1) = [1] ∧ s.lists.get (s.timers 1).msecs = none ∧ s.phase = .idle)
    [.setTimeout (some 10) true, .tick 10, .fire 0, .advance, .clearTimeout 0,
      .setTimeout (some 10) true, .returns, .advance]
    (by decide +kernel)
  have agrees := all 0 s run (by rw [idle]; rfl)
  obtain ⟨-, here⟩ := agrees.kept 1 (items ▸ cons_ne_nil _ _)
  simp [gone] at here

end IoJs.Timers
