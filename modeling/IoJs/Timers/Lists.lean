import IoJs.Timers.Machine
import Mathlib.Data.List.Perm.Subperm

/-!
# What the lists of timers hold

`Linked s contents` says that the lists hold `contents`, and that what the state refers to has been
made. Each operation keeps it: one that arms an item puts it at the end of the list of its duration
and takes it out of every other list (`Linked.insert_old`, `Linked.insert_new`), and `unenroll` only
takes it out (`Linked.unenroll`).
-/

namespace IoJs.Timers

open IoJs.Library List
open Function (update_idem update_of_ne update_self)

/-- The list that is being worked on -/
def Phase.list : Phase → Option Nat
  | .listLoop list _ | .listCallback list .. => some list
  | _ => none

/-- The duration with which an interval starts again -/
def Phase.repeats : Phase → Option ℚ
  | .listCallback _ _ _ repeat_ | .unrefCallback _ _ repeat_ => repeat_
  | _ => none

/-- The item whose callback runs -/
def Phase.first : Phase → Option Nat
  | .listCallback _ _ first _ | .unrefCallback _ first _ => first
  | _ => none

/-- `unrefTimeout` is running. -/
def Phase.isUnref : Phase → Bool
  | .unrefLoop _ | .unrefCallback .. => true
  | _ => false

structure Linked (s : State) (contents : Head → List Nat) : Prop where
  holds : Holds s.links s.made contents
  known : ∀ {h i}, i ∈ contents h → i < s.itemCount
  table : ∀ {msecs list}, s.lists.get msecs = some list →
    list < s.timerCount ∧ (s.timers list).msecs = msecs
  retries : ∀ list ∈ s.retries, list < s.timerCount
  phase : ∀ list ∈ s.phase.list, list < s.timerCount
  first : ∀ i ∈ s.phase.first, i < s.itemCount
  wrapper : ∀ {i repeat_}, (s.items i).onTimeout = some (.wrapper repeat_) → 1 ≤ repeat_
  repeats : ∀ repeat_ ∈ s.phase.repeats, 1 ≤ repeat_

/-- The item is the last one of a list, and in no other. -/
def placed (i : Nat) (h : Head) (contents : Head → List Nat) : Head → List Nat :=
  Function.update (without i contents) h (without i contents h ++ [i])

variable {s : State} {c : Head → List Nat} {i list : Nat} {msecs : ℚ} {h : Head} {h' : Head}

theorem mem_placed (holds : Holds s.links s.made c) {j : Nat} :
    j ∈ placed i h c h' ↔ j = i ∧ h' = h ∨ j ≠ i ∧ j ∈ c h' := by
  rw [placed]
  by_cases same : h' = h
  · subst same
    rw [update_self, mem_append, mem_singleton, mem_without (holds.nodup h')]
    simp only [and_true]
    exact or_comm
  rw [update_of_ne same, mem_without (holds.nodup h')]
  simp only [same, and_false, false_or]

theorem placed_self (i : Nat) (h : Head) (c : Head → List Nat) :
    placed i h c h = (c h).erase i ++ [i] := update_self ..

theorem placed_of_ne (other : h' ≠ h) : placed i h c h' = (c h').erase i := update_of_ne other _ _

theorem pairwise_placed {R R' : Nat → Nat → Prop} (nodup : (c h').Nodup)
    (sorted : (c h').Pairwise R)
    (kept : ∀ {j j'}, j ≠ i → j' ≠ i → R j j' → R' j j')
    (last : h' = h → ∀ j ∈ c h', j ≠ i → R' j i) : (placed i h c h').Pairwise R' := by
  have erased : ((c h').erase i).Pairwise R' := (sorted.sublist erase_sublist).imp_of_mem
    fun mem mem' => kept (nodup.mem_erase_iff.mp mem).1 (nodup.mem_erase_iff.mp mem').1
  by_cases same : h' = h
  · subst same
    rw [placed_self, pairwise_append]
    refine ⟨erased, pairwise_singleton _ _, fun j mem j' mem' => ?_⟩
    obtain ⟨other, old⟩ := nodup.mem_erase_iff.mp mem
    exact mem_singleton.mp mem' ▸ last rfl j old other
  · rwa [placed_of_ne same]

namespace Linked

theorem initial (now : ℚ) : Linked (State.initial now) fun _ => [] where
  holds := by
    have none_ : (State.initial now).made = fun _ => False := by
      funext h
      cases h with
      | list list => exact propext ⟨fun made => absurd made (Nat.not_lt_zero _), False.elim⟩
      | unref => exact propext ⟨by rintro ⟨⟩, False.elim⟩
    rw [none_]
    exact .initial
  known := by rintro h i ⟨⟩
  table := by rintro msecs list ⟨⟩
  retries := by rintro list ⟨⟩
  phase := by rintro list ⟨⟩
  first := by rintro i ⟨⟩
  wrapper := by rintro i repeat_ ⟨⟩
  repeats := by rintro repeat_ ⟨⟩

section

variable (linked : Linked s c)
include linked

theorem length_le (h : Head) : (c h).length ≤ s.itemCount := by
  have sub : c h ⊆ List.range s.itemCount := fun i mem => mem_range.mpr (linked.known mem)
  have short := ((linked.holds.nodup h).subperm sub).length_le
  rwa [length_range] at short

theorem contents_eq : s.contents = c := by
  funext h
  exact linked.holds.items_eq (linked.length_le h)

theorem absent_of_next (free : s.links.next (.item i) = none) : ∀ h, i ∉ c h := by
  intro h mem
  obtain ⟨a, b, after, -⟩ := linked.holds.linked mem
  rw [free] at after
  cases after

theorem absent_of_le (new : s.itemCount ≤ i) : ∀ h, i ∉ c h :=
  fun _ mem => absurd (linked.known mem) (Nat.not_lt_of_le new)

/-! ## What the lists do not depend on -/

theorem setItem (i : Nat) (item : Item)
    (wrapper : ∀ {repeat_}, item.onTimeout = some (.wrapper repeat_) → 1 ≤ repeat_) :
    Linked (s.setItem i item) c where
  holds := linked.holds
  known := linked.known
  table := linked.table
  retries := linked.retries
  phase := linked.phase
  first := linked.first
  wrapper := by
    intro j repeat_ here
    by_cases same : j = i
    · subst same
      rw [State.items_setItem_self] at here
      exact wrapper here
    rw [State.items_setItem_of_ne same] at here
    exact linked.wrapper here
  repeats := linked.repeats

theorem log (event : Event) : Linked (s.log event) c :=
  ⟨linked.holds, linked.known, linked.table, linked.retries, linked.phase, linked.first,
    linked.wrapper, linked.repeats⟩

theorem setTimer (timer : Timer)
    (same : timer.msecs = (s.timers list).msecs) : Linked (s.setTimer list timer) c where
  holds := linked.holds
  known := linked.known
  table := by
    intro msecs other here
    obtain ⟨bound, duration⟩ := linked.table here
    refine ⟨bound, ?_⟩
    by_cases eq : other = list
    · subst eq
      rw [State.timers_setTimer_self, same, duration]
    · rwa [State.timers_setTimer_of_ne eq]
  retries := linked.retries
  phase := linked.phase
  first := linked.first
  wrapper := linked.wrapper
  repeats := linked.repeats

theorem delete (msecs : ℚ) : Linked { s with lists := s.lists.delete msecs } c where
  holds := linked.holds
  known := linked.known
  table := by
    intro other list here
    rw [Properties.get_delete] at here
    split_ifs at here with same
    exact linked.table here
  retries := linked.retries
  phase := linked.phase
  first := linked.first
  wrapper := linked.wrapper
  repeats := linked.repeats

theorem setPhase (phase : Phase) (list : ∀ l ∈ phase.list, l < s.timerCount)
    (first : ∀ i ∈ phase.first, i < s.itemCount)
    (repeats : ∀ repeat_ ∈ phase.repeats, 1 ≤ repeat_) : Linked { s with phase := phase } c where
  holds := linked.holds
  known := linked.known
  table := linked.table
  retries := linked.retries
  phase := list
  first := first
  wrapper := linked.wrapper
  repeats := repeats

theorem setIdle (phase : Phase) (list : phase.list = none)
    (first : phase.first = none) (repeats : phase.repeats = none) :
    Linked { s with phase := phase } c := by
  refine linked.setPhase phase ?_ ?_ ?_
  · rw [list]
    rintro l ⟨⟩
  · rw [first]
    rintro i ⟨⟩
  rw [repeats]
  rintro repeat_ ⟨⟩

theorem setTicks (now : ℚ) (retries : List Nat)
    (known : ∀ list ∈ retries, list < s.timerCount) (unrefRetries : Nat) :
    Linked { s with now := now, retries := retries, unrefRetries := unrefRetries } c where
  holds := linked.holds
  known := linked.known
  table := linked.table
  retries := known
  phase := linked.phase
  first := linked.first
  wrapper := linked.wrapper
  repeats := linked.repeats

theorem setUnref (timer : Option UnrefTimer)
    (same : timer.isSome = s.unrefTimer.isSome) : Linked { s with unrefTimer := timer } c where
  holds := by
    have made : State.made { s with unrefTimer := timer } = s.made := by
      funext h
      cases h with
      | list list => rfl
      | unref => exact congrArg (· = true) same
    rw [made]
    exact linked.holds
  known := linked.known
  table := linked.table
  retries := linked.retries
  phase := linked.phase
  first := linked.first
  wrapper := linked.wrapper
  repeats := linked.repeats

theorem makeItem (item : Item)
    (wrapper : ∀ {repeat_}, item.onTimeout = some (.wrapper repeat_) → 1 ≤ repeat_) :
    Linked (s.makeItem item) c where
  holds := linked.holds
  known := fun mem => Nat.lt_succ_of_lt (linked.known mem)
  table := linked.table
  retries := linked.retries
  phase := linked.phase
  first := fun i mem => Nat.lt_succ_of_lt (linked.first i mem)
  wrapper := (linked.setItem s.itemCount item wrapper).wrapper
  repeats := linked.repeats

/-! ## What they hold -/

theorem setLinks {links : Links} {c' : Head → List Nat}
    (holds : Holds links s.made c') (known : ∀ {h i}, i ∈ c' h → i < s.itemCount) :
    Linked { s with links := links } c' where
  holds := holds
  known := known
  table := linked.table
  retries := linked.retries
  phase := linked.phase
  first := linked.first
  wrapper := linked.wrapper
  repeats := linked.repeats

theorem init_item (absent : ∀ h, i ∉ c h) : Linked { s with links := s.links.init (.item i) } c :=
  linked.setLinks (linked.holds.init_item absent) linked.known

theorem remove (i : Nat) : Linked (s.remove i) (without i c) :=
  linked.setLinks (linked.holds.remove i) fun mem => linked.known (mem_of_mem_erase mem)

theorem append_head (here : s.made h) (known : i < s.itemCount) :
    Linked (s.append (.head h) i) (placed i h c) := by
  refine linked.setLinks (linked.holds.append_head here i) fun {h' j} mem => ?_
  rcases (mem_placed linked.holds).mp mem with ⟨rfl, -⟩ | ⟨-, old⟩
  · exact known
  · exact linked.known old

theorem makeList (msecs : ℚ) : Linked (s.makeList msecs) c where
  holds := by
    have made : (s.makeList msecs).made = fun h => h = .list s.timerCount ∨ s.made h := by
      funext h
      cases h with
      | list list =>
        refine propext (Nat.lt_succ_iff_lt_or_eq.trans (or_comm.trans (or_congr_left ?_)))
        exact ⟨fun same => congrArg Head.list same, fun same => Head.list.inj same⟩
      | unref =>
        refine propext (Iff.symm (or_iff_right ?_))
        rintro ⟨⟩
    rw [made]
    exact linked.holds.init_head (Nat.lt_irrefl _)
  known := linked.known
  table := by
    intro other list here
    rw [State.makeList, Properties.get_set] at here
    split_ifs at here with same
    · cases here
      subst same
      refine ⟨Nat.lt_succ_self _, ?_⟩
      rw [State.timers_makeList_self]
    obtain ⟨bound, duration⟩ := linked.table here
    refine ⟨Nat.lt_succ_of_lt bound, ?_⟩
    rwa [State.timers_makeList_of_ne (Nat.ne_of_lt bound)]
  retries := fun list mem => Nat.lt_succ_of_lt (linked.retries list mem)
  phase := fun list mem => Nat.lt_succ_of_lt (linked.phase list mem)
  first := linked.first
  wrapper := linked.wrapper
  repeats := linked.repeats

end

theorem made_unref_iff : s.made .unref ↔ s.unrefTimer.isSome = true := Iff.rfl

theorem initUnref (linked : Linked s c) (new : s.unrefTimer.isSome ≠ true) :
    Linked s.initUnref c where
  holds := by
    have made : s.initUnref.made = fun h => h = .unref ∨ s.made h := by
      funext h
      cases h with
      | list list => exact propext (or_iff_right (by rintro ⟨⟩)).symm
      | unref => exact propext ⟨fun _ => .inl rfl, fun _ => rfl⟩
    rw [made]
    exact linked.holds.init_head new
  known := linked.known
  table := linked.table
  retries := linked.retries
  phase := linked.phase
  first := linked.first
  wrapper := linked.wrapper
  repeats := linked.repeats

end Linked

/-! ## Arming an item -/

namespace State

/-- What `insert` does when it has the list -/
def enter (i list : Nat) (msecs : ℚ) (s : State) : State :=
  ((s.append (.head (.list list)) i).setItem i
    { s.items i with idleStart := s.now, idleTimeout := msecs }).log (.armed i list s.now msecs)

theorem items_enter_self : (s.enter i list msecs).items i =
    { s.items i with idleStart := s.now, idleTimeout := msecs } := items_setItem_self ..

theorem items_enter_of_ne {j : Nat} (other : j ≠ i) :
    (s.enter i list msecs).items j = s.items j := items_setItem_of_ne other _ _

section

variable (positive : 0 ≤ msecs)
include positive

theorem insert_old (here : s.lists.get msecs = some list) :
    s.insert i msecs = s.enter i list msecs := by
  have found : (s.setItem i
      { s.items i with idleStart := s.now, idleTimeout := msecs }).lists.get msecs =
        some list := here
  rw [insert, if_neg (not_lt.mpr positive), found]
  rfl

theorem insert_new (none_ : s.lists.get msecs = none) :
    s.insert i msecs = (s.makeList msecs).enter i s.timerCount msecs := by
  have missing : (s.setItem i
      { s.items i with idleStart := s.now, idleTimeout := msecs }).lists.get msecs = none := none_
  rw [insert, if_neg (not_lt.mpr positive), missing]
  rfl

theorem insert_setItem (before : ℚ) :
    (s.setItem i { s.items i with idleTimeout := before }).insert i msecs = s.insert i msecs := by
  have entered : ∀ s : State, ∀ list,
      (s.setItem i { s.items i with idleTimeout := before }).enter i list msecs =
        s.enter i list msecs := by
    intro s list
    simp only [enter, append, log, setItem, update_self, update_idem]
  cases here : s.lists.get msecs with
  | some list =>
    rw [insert_old positive here, ← entered s list]
    exact insert_old positive here
  | none =>
    rw [insert_new positive here, ← entered (s.makeList msecs)]
    exact insert_new positive here

theorem rearm_eq_insert (again : (s.items i).repeat_ = true) :
    s.rearm i (some msecs) = s.insert i msecs := by
  rw [← insert_setItem positive msecs]
  refine (if_pos again).trans ?_
  rw [active, items_setItem_self]
  exact if_pos positive

end

/-- An interval that has not ended is armed again, as by `insert`. -/
theorem rearm_cases {repeat_ : Option ℚ} (positive : ∀ r ∈ repeat_, 1 ≤ r) :
    s.rearm i repeat_ = s ∨ ∃ r ∈ repeat_, (s.items i).repeat_ = true ∧ 0 ≤ r ∧
      s.rearm i repeat_ = s.insert i r := by
  cases repeat_ with
  | none => exact .inl rfl
  | some r =>
    by_cases again : (s.items i).repeat_ = true
    · have nonneg : 0 ≤ r := le_trans zero_le_one (positive r rfl)
      exact .inr ⟨r, rfl, again, nonneg, rearm_eq_insert nonneg again⟩
    · exact .inl (if_neg again)

@[simp] theorem phase_insert (s : State) (i : Nat) (msecs : ℚ) :
    (s.insert i msecs).phase = s.phase := by
  by_cases positive : 0 ≤ msecs
  · cases here : s.lists.get msecs with
    | some list => rw [insert_old positive here]; rfl
    | none => rw [insert_new positive here]; rfl
  rw [insert, if_pos (not_le.mp positive)]
  rfl

@[simp] theorem phase_active (s : State) (i : Nat) : (s.active i).phase = s.phase := by
  rw [active]
  split_ifs
  · exact phase_insert _ _ _
  · rfl

@[simp] theorem phase_rearm (s : State) (i : Nat) (repeat_ : Option ℚ) :
    (s.rearm i repeat_).phase = s.phase := by
  cases repeat_ with
  | none => rfl
  | some =>
    rw [rearm]
    simp only
    split_ifs
    · exact phase_active _ _
    · rfl

theorem stopEmpty_eq (s : State) (msecs : ℚ) :
    ∃ lists timers, s.stopEmpty msecs = { s with lists := lists, timers := timers } ∧
      ∀ l, (timers l).msecs = (s.timers l).msecs := by
  rw [stopEmpty]
  cases s.lists.get msecs with
  | none => exact ⟨s.lists, s.timers, rfl, fun _ => rfl⟩
  | some list =>
    simp only
    split_ifs
    · exact ⟨s.lists.delete msecs, (s.closeTimer list).timers, rfl, msecs_setTimer _ rfl⟩
    · exact ⟨s.lists, s.timers, rfl, fun _ => rfl⟩

end State

namespace Linked

section

variable (linked : Linked s c)
include linked

theorem enter (here : list < s.timerCount) (known : i < s.itemCount) :
    Linked (s.enter i list msecs) (placed i (.list list) c) := by
  have moved := linked.append_head (h := .list list) here known
  refine (moved.setItem _ _ ?_).log _
  exact fun wrapper => linked.wrapper wrapper

/-! ## Removing an item -/

theorem closeTimer (list : Nat) : Linked (s.closeTimer list) c := linked.setTimer _ rfl

theorem stopEmpty (msecs : ℚ) : Linked (s.stopEmpty msecs) c := by
  rw [State.stopEmpty]
  cases s.lists.get msecs with
  | none => exact linked
  | some list =>
    simp only
    split_ifs
    · exact (linked.closeTimer list).delete msecs
    · exact linked

theorem unenroll (i : Nat) : Linked (s.unenroll i) (without i c) := by
  have stopped := (linked.remove i).stopEmpty (s.items i).idleTimeout
  refine (stopped.setItem _ _ ?_).log _
  exact fun wrapper => stopped.wrapper wrapper

end

end Linked

end IoJs.Timers
