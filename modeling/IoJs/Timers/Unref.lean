import IoJs.Library.Runs
import IoJs.Timers.Loops

/-!
# The queue of `unrefList`

`unrefList` is sorted by the time at which its items expire: `_unrefActive` walks from the peek end
to the first item that expires later, and puts the new one before it (`Queue.unrefActive`). Outside
of `unrefTimeout`, if no tick is left to go on with it, `unrefTimer` is armed for a time at which
nothing has expired yet.
-/

namespace IoJs.Timers

open IoJs.Library List

/-- `unrefTimeout` is running, or is going to run in a later tick. -/
def State.pending (s : State) : Prop := s.phase.isUnref = true ∨ s.unrefRetries ≠ 0

/-- `unrefTimer` is armed for a time at which no item has expired. -/
structure State.ArmedFor (s : State) (items : List Nat) (timer : UnrefTimer) : Prop where
  here : s.unrefTimer = some timer
  armed : timer.isArmed = true
  when_nonneg : 0 ≤ timer.when_
  when_le : ∀ i ∈ items, timer.when_ ≤ s.expiry i

/-- The invariant -/
structure Queue (s : State) (c : Head → List Nat) : Prop where
  linked : Linked s c
  clock : 0 ≤ s.now
  sorted : (c .unref).Pairwise fun i j => s.expiry i ≤ s.expiry j
  positive : ∀ i ∈ c .unref, 0 < (s.items i).idleTimeout ∧ 0 ≤ (s.items i).idleStart
  armed : c .unref ≠ [] → s.pending ∨ ∃ timer, s.ArmedFor (c .unref) timer

variable {s s' : State} {c c' : Head → List Nat} {i : Nat} {msecs when_ : ℚ}

theorem expiry_congr (start : (s'.items i).idleStart = (s.items i).idleStart)
    (timeout : (s'.items i).idleTimeout = (s.items i).idleTimeout) : s'.expiry i = s.expiry i := by
  simp [State.expiry, start, timeout]

namespace Queue

theorem initial {now : ℚ} (clock : 0 ≤ now) : Queue (State.initial now) fun _ => [] where
  linked := .initial now
  clock := clock
  sorted := .nil
  positive := by rintro i ⟨⟩
  armed := fun some_ => absurd rfl some_

section

variable (queue : Queue s c)
include queue

theorem shrink (linked : Linked s' c') (sub : (c' .unref).Sublist (c .unref))
    (items : ∀ i ∈ c' .unref, (s'.items i).idleStart = (s.items i).idleStart ∧
      (s'.items i).idleTimeout = (s.items i).idleTimeout)
    (clock : 0 ≤ s'.now) (timer : s'.unrefTimer = s.unrefTimer) (pending : s.pending → s'.pending) :
    Queue s' c' where
  linked := linked
  clock := clock
  sorted := by
    refine (queue.sorted.sublist sub).imp_of_mem fun {i j} mem mem' before => ?_
    rwa [expiry_congr (items i mem).1 (items i mem).2,
      expiry_congr (items j mem').1 (items j mem').2]
  positive := by
    intro i mem
    rw [(items i mem).1, (items i mem).2]
    exact queue.positive i (sub.subset mem)
  armed := by
    intro some_
    have before : c .unref ≠ [] := fun nil => some_ (sublist_nil.mp (nil ▸ sub))
    refine (queue.armed before).imp pending fun ⟨timer', armed⟩ => ⟨timer', ?_⟩
    refine ⟨timer.trans armed.here, armed.armed, armed.when_nonneg, fun i mem => ?_⟩
    rw [expiry_congr (items i mem).1 (items i mem).2]
    exact armed.when_le i (sub.subset mem)

theorem enter {list : Nat} (here : list < s.timerCount)
    (known : i < s.itemCount) : Queue (s.enter i list msecs) (placed i (.list list) c) := by
  have erased : placed i (.list list) c .unref = (c .unref).erase i := placed_of_ne (by rintro ⟨⟩)
  refine queue.shrink (queue.linked.enter here known) ?_ ?_ queue.clock rfl id
  · exact erase_sublist
  intro j mem
  rw [erased, (queue.linked.holds.nodup .unref).mem_erase_iff] at mem
  simp [State.items_enter_of_ne mem.1]

theorem makeList (msecs : ℚ) : Queue (s.makeList msecs) c :=
  queue.shrink (queue.linked.makeList msecs) (List.Sublist.refl _) (fun _ _ => ⟨rfl, rfl⟩)
    queue.clock rfl id

theorem insert (known : i < s.itemCount) (positive : 0 ≤ msecs) :
    ∃ c', Queue (s.insert i msecs) c' := by
  cases here : s.lists.get msecs with
  | some list =>
    rw [State.insert_old positive here]
    exact ⟨_, queue.enter (queue.linked.table here).1 known⟩
  | none =>
    rw [State.insert_new positive here]
    exact ⟨_, (queue.makeList msecs).enter (Nat.lt_succ_self _) known⟩

theorem active (known : i < s.itemCount) : ∃ c', Queue (s.active i) c' := by
  rw [State.active]
  split_ifs with positive
  · exact queue.insert known positive
  · exact ⟨c, queue⟩

theorem rearm (known : i < s.itemCount) (repeat_ : Option ℚ)
    (positive : ∀ r ∈ repeat_, 1 ≤ r) : ∃ c', Queue (s.rearm i repeat_) c' := by
  obtain same | ⟨r, -, -, nonneg, same⟩ := State.rearm_cases (s := s) (i := i) positive
  · rw [same]
    exact ⟨c, queue⟩
  · rw [same]
    exact queue.insert known nonneg

theorem unenroll (i : Nat) : Queue (s.unenroll i) (without i c) := by
  obtain ⟨lists, timers, eq, -⟩ := (s.remove i).stopEmpty_eq (s.items i).idleTimeout
  have linked := queue.linked.unenroll i
  rw [State.unenroll, eq] at linked ⊢
  refine queue.shrink linked erase_sublist (fun j mem => ?_) queue.clock rfl id
  have other : j ≠ i := ((mem_without (queue.linked.holds.nodup .unref)).mp mem).1
  have same : ∀ {s' : State} {item : Item}, (s'.setItem i item).items j = s'.items j :=
    State.items_setItem_of_ne other _ _
  simp only [State.log, same]
  exact ⟨rfl, rfl⟩

end

end Queue

theorem queue_kept : Kept fun s => Queue s s.contents where
  linked := Queue.linked
  quiet := by
    intro s s' queue quiet
    rw [quiet.contents]
    refine queue.shrink quiet.linked (List.Sublist.refl _) (fun i mem => quiet.times mem)
      (quiet.now.symm ▸ queue.clock) quiet.unrefTimer fun pending => ?_
    rwa [State.pending, quiet.phase, quiet.unrefRetries]
  active := by
    intro s i queue known
    obtain ⟨c', after⟩ := queue.active known
    rwa [after.linked.contents_eq]
  unenroll := by
    intro s i queue _
    have after := queue.unenroll i
    rwa [after.linked.contents_eq]

/-! ## Sorted insertion -/

theorem place_eq {x : Node} {items : List Nat} {h : Head} {n : Nat}
    (walk : Walk s.links.prev x (items.map .item) (.head h)) (enough : items.length < n) :
    s.place when_ n (s.links.prev x) = items.find? fun j => when_ < s.expiry j := by
  induction items generalizing x n with
  | nil =>
    have last : s.links.prev x = some (.head h) := walk
    obtain ⟨n, rfl⟩ := Nat.exists_eq_succ_of_ne_zero (Nat.ne_of_gt enough)
    rw [last]
    rfl
  | cons j items ih =>
    have first : s.links.prev x = some (.item j) := walk.1
    obtain ⟨n, rfl⟩ := Nat.exists_eq_succ_of_ne_zero (Nat.ne_of_gt (Nat.zero_lt_of_lt enough))
    rw [first, State.place, List.find?_cons]
    by_cases later : when_ < s.expiry j
    · simp [later]
    · simpa [later] using ih walk.2 (Nat.lt_of_succ_lt_succ enough)

/-- The part of `_unrefActive` that puts the item into the list -/
def State.join (i : Nat) (when_ : ℚ) (s : State) : State :=
  if s.links.isEmpty (.head .unref) then (s.append (.head .unref) i).startUnref when_
  else
    match s.place when_ (s.itemCount + 1) (s.links.prev (.head .unref)) with
    | some j => (s.append (.item j) i).advanceUnref when_
    | none => s.append (.head .unref) i

namespace Queue

theorem join_empty (queue : Queue s c) (made : s.made .unref) (known : i < s.itemCount)
    (start : 0 ≤ (s.items i).idleStart) (timeout : 0 < (s.items i).idleTimeout)
    (empty : c .unref = []) :
    Queue ((s.append (.head .unref) i).startUnref (s.expiry i)) (placed i .unref c) := by
  have only : placed i .unref c .unref = [i] := by rw [placed_self, empty]; rfl
  refine ⟨?_, queue.clock, ?_, ?_, fun _ => .inr ⟨⟨true, s.expiry i⟩, rfl, rfl, ?_, ?_⟩⟩
  · exact (queue.linked.append_head made known).setUnref _ made.symm
  · grind
  · intro j mem
    rw [only, mem_singleton] at mem
    subst mem
    exact ⟨timeout, start⟩
  · exact add_nonneg start timeout.le
  intro j mem
  rw [only, mem_singleton] at mem
  subst mem
  exact le_refl _

theorem advanceUnref_armed {items : List Nat} {timer : UnrefTimer} (armed : s.ArmedFor items timer)
    (nonneg : 0 ≤ when_) {items' : List Nat}
    (mem : ∀ j ∈ items', j ∈ items ∨ s.expiry j = when_) :
    ∃ timer', (s.advanceUnref when_).ArmedFor items' timer' := by
  by_cases late : timer.when_ > when_
  · have eq : s.advanceUnref when_ = s.startUnref when_ := by
      rw [State.advanceUnref, armed.here]
      exact if_pos late
    rw [eq]
    refine ⟨⟨true, when_⟩, rfl, rfl, nonneg, fun j j_mem => ?_⟩
    rcases mem j j_mem with old | new
    · exact late.le.trans (armed.when_le j old)
    · exact new.ge
  have eq : s.advanceUnref when_ = s := by
    rw [State.advanceUnref, armed.here]
    exact if_neg late
  rw [eq]
  refine ⟨timer, armed.here, armed.armed, armed.when_nonneg, fun j j_mem => ?_⟩
  rcases mem j j_mem with old | new
  · exact armed.when_le j old
  · exact (not_lt.mp late).trans new.ge

theorem advanceUnref_eq (s : State) (when_ : ℚ) :
    ∃ timer, s.advanceUnref when_ = { s with unrefTimer := timer } ∧
      timer.isSome = s.unrefTimer.isSome := by
  rw [State.advanceUnref]
  cases here : s.unrefTimer with
  | none => grind
  | some timer =>
    have same : { s with unrefTimer := some timer } = s := by rw [← here]
    simp only
    split_ifs
    · exact ⟨_, rfl, rfl⟩
    · exact ⟨some timer, same.symm, rfl⟩

section

variable (queue : Queue s c)
include queue

theorem join_before (absent : ∀ h, i ∉ c h) (known : i < s.itemCount)
    (start : 0 ≤ (s.items i).idleStart) (timeout : 0 < (s.items i).idleTimeout) {j : Nat}
    {first rest : List Nat} (split : c .unref = first ++ j :: rest)
    (later : s.expiry i < s.expiry j) (before : ∀ k ∈ first, s.expiry k ≤ s.expiry i) :
    ∃ c', Queue ((s.append (.item j) i).advanceUnref (s.expiry i)) c' := by
  have other : i ≠ j := by
    rintro rfl
    exact lt_irrefl _ later
  have split' : without i c .unref = first ++ j :: rest := by rw [without_of_not_mem absent, split]
  have linked : Linked (s.append (.item j) i)
      (Function.update (without i c) .unref (first ++ i :: j :: rest)) := by
    refine queue.linked.setLinks (queue.linked.holds.append_item other split') fun {h k} mem => ?_
    by_cases same : h = .unref
    · subst same
      rw [Function.update_self, mem_append, mem_cons] at mem
      have in_c : k = i ∨ k ∈ c .unref := by
        rw [split, mem_append]
        exact mem.elim (fun old => .inr (.inl old)) (Or.imp_right .inr)
      exact in_c.elim (fun eq => eq ▸ known) queue.linked.known
    rw [Function.update_of_ne same] at mem
    exact queue.linked.known (mem_of_mem_erase mem)
  have mem_iff : ∀ {k}, k ∈ first ++ i :: j :: rest → k = i ∨ k ∈ c .unref := by
    intro k mem
    rw [split, mem_append]
    rw [mem_append, mem_cons] at mem
    exact mem.elim (fun old => .inr (.inl old)) (Or.imp_right .inr)
  have sorted := queue.sorted
  rw [split, pairwise_append, pairwise_cons] at sorted
  obtain ⟨timer', eq, isSome⟩ := advanceUnref_eq (s.append (.item j) i) (s.expiry i)
  refine ⟨_, eq ▸ linked.setUnref _ isSome, ?_, ?_, ?_, fun _ => ?_⟩
  · rw [eq]
    exact queue.clock
  · rw [Function.update_self, eq]
    change (first ++ i :: j :: rest).Pairwise fun k k' => s.expiry k ≤ s.expiry k'
    rw [pairwise_append, pairwise_cons, pairwise_cons]
    refine ⟨sorted.1, ⟨?_, sorted.2.1⟩, ?_⟩
    · intro k mem
      rcases mem_cons.mp mem with rfl | mem
      · exact later.le
      · exact later.le.trans (sorted.2.1.1 k mem)
    intro k k_mem k' mem
    rcases mem_cons.mp mem with rfl | mem
    · exact before k k_mem
    · exact sorted.2.2 k k_mem k' mem
  · rw [Function.update_self, eq]
    intro k mem
    rcases mem_iff mem with rfl | old
    · exact ⟨timeout, start⟩
    · exact queue.positive k old
  have some_ : c .unref ≠ [] := by simp [split]
  refine (queue.armed some_).imp (fun pending => ?_) fun ⟨timer, armed⟩ => ?_
  · rw [eq]
    exact pending
  have appended : (s.append (.item j) i).ArmedFor (c .unref) timer :=
    ⟨armed.here, armed.armed, armed.when_nonneg, armed.when_le⟩
  refine advanceUnref_armed appended (add_nonneg start timeout.le) fun k mem => ?_
  exact (mem_iff mem).symm.imp_right fun same => congrArg s.expiry same

theorem join_last (made : s.made .unref) (absent : ∀ h, i ∉ c h)
    (known : i < s.itemCount) (start : 0 ≤ (s.items i).idleStart)
    (timeout : 0 < (s.items i).idleTimeout) (some_ : c .unref ≠ [])
    (before : ∀ k ∈ c .unref, s.expiry k ≤ s.expiry i) :
    Queue (s.append (.head .unref) i) (placed i .unref c) := by
  have last : placed i .unref c .unref = c .unref ++ [i] := by
    rw [placed_self, erase_of_not_mem (absent .unref)]
  have mem_iff : ∀ {k}, k ∈ c .unref ++ [i] → k ∈ c .unref ∨ k = i := by simp
  refine ⟨queue.linked.append_head made known, queue.clock, ?_, ?_, fun _ => ?_⟩
  · rw [last, pairwise_append]
    refine ⟨queue.sorted, pairwise_singleton _ _, fun k mem k' mem' => ?_⟩
    rw [mem_singleton.mp mem']
    exact before k mem
  · rw [last]
    intro k mem
    rcases mem_iff mem with old | rfl
    · exact queue.positive k old
    · exact ⟨timeout, start⟩
  rw [last]
  refine (queue.armed some_).imp id fun ⟨timer, armed⟩ => ⟨timer, ?_⟩
  refine ⟨armed.here, armed.armed, armed.when_nonneg, fun k mem => ?_⟩
  rcases mem_iff mem with old | rfl
  · exact armed.when_le k old
  obtain ⟨k, old⟩ := exists_mem_of_ne_nil _ some_
  exact (armed.when_le k old).trans (before k old)

theorem join (made : s.made .unref) (absent : ∀ h, i ∉ c h)
    (known : i < s.itemCount) (start : 0 ≤ (s.items i).idleStart)
    (timeout : 0 < (s.items i).idleTimeout) : ∃ c', Queue (s.join i (s.expiry i)) c' := by
  have linked := queue.linked
  have isEmpty_iff := linked.holds.isEmpty_iff made
  rw [State.join]
  by_cases empty : c .unref = []
  · simpa [isEmpty_iff.mpr empty] using ⟨_, queue.join_empty made known start timeout empty⟩
  rw [if_neg (mt isEmpty_iff.mp empty),
    place_eq (linked.holds.walk made) (Nat.lt_succ_of_le (linked.length_le _))]
  cases found : (c .unref).find? fun j => s.expiry i < s.expiry j with
  | none =>
    have before := List.find?_eq_none.mp found
    refine ⟨_, queue.join_last made absent known start timeout empty fun k mem => ?_⟩
    simpa using before k mem
  | some j =>
    obtain ⟨later, first, rest, split, before⟩ := List.find?_eq_some_iff_append.mp found
    refine queue.join_before absent known start timeout split (of_decide_eq_true later) ?_
    intro k mem
    simpa using before k mem

theorem setStart (absent : ∀ h, i ∉ c h) :
    Queue (s.setItem i { s.items i with idleStart := s.now }) c := by
  have linked := queue.linked.setItem i { s.items i with idleStart := s.now } queue.linked.wrapper
  refine queue.shrink linked (List.Sublist.refl _) (fun j mem => ?_) queue.clock rfl id
  have other : j ≠ i := fun same => absent _ (same ▸ mem)
  simp [State.items_setItem_of_ne other]

theorem join_started (made : s.made .unref) (absent : ∀ h, i ∉ c h)
    (known : i < s.itemCount) (timeout : 0 < (s.items i).idleTimeout) :
    ∃ c', Queue ((s.setItem i { s.items i with idleStart := s.now }).join i
      (s.now + (s.items i).idleTimeout)) c' := by
  have expiry : (s.setItem i { s.items i with idleStart := s.now }).expiry i =
      s.now + (s.items i).idleTimeout := by
    rw [State.expiry, State.items_setItem_self]
  rw [← expiry]
  refine (queue.setStart absent).join made absent known ?_ ?_
  · rw [State.items_setItem_self]
    exact queue.clock
  rw [State.items_setItem_self]
  exact timeout

theorem unrefActive (known : i < s.itemCount) : ∃ c', Queue (s.unrefActive i) c' := by
  by_cases none_ : (s.items i).idleTimeout ≤ 0
  · have eq : s.unrefActive i = s := if_pos none_
    rw [eq]
    exact ⟨c, queue⟩
  have positive := not_le.mp none_
  have removed : Queue (s.remove i) (without i c) :=
    queue.shrink (queue.linked.remove i) erase_sublist (fun _ _ => ⟨rfl, rfl⟩) queue.clock
      rfl id
  have absent := queue.linked.holds.not_mem_without i
  rw [State.unrefActive]
  simp only [if_neg none_]
  by_cases made : (s.remove i).unrefTimer.isSome = true
  · rw [if_pos made]
    exact removed.join_started made absent known positive
  rw [if_neg made]
  have nothing : without i c .unref = [] := (removed.linked.holds.unmade (h := .unref) made).1
  have init : Queue (s.remove i).initUnref (without i c) := by
    refine ⟨removed.linked.initUnref made, removed.clock, ?_, ?_, fun some_ => ?_⟩
    · simp [nothing]
    · simp [nothing]
    · exact absurd nothing some_
  exact init.join_started rfl absent known positive

/-! ## Steps -/

theorem same (linked : Linked s' c) (items : s'.items = s.items)
    (clock : 0 ≤ s'.now) (timer : s'.unrefTimer = s.unrefTimer) (pending : s.pending → s'.pending) :
    Queue s' c :=
  queue.shrink linked (List.Sublist.refl _) (fun _ _ => by rw [items]; exact ⟨rfl, rfl⟩) clock timer
    pending

theorem without (linked : Linked s' (without i c)) (items : s'.items = s.items)
    (clock : 0 ≤ s'.now) (timer : s'.unrefTimer = s.unrefTimer) (pending : s.pending → s'.pending) :
    Queue s' (Timers.without i c) :=
  queue.shrink linked erase_sublist (fun _ _ => by rw [items]; exact ⟨rfl, rfl⟩) clock timer
    pending

end

variable {now : ℚ}

theorem looped (queue : Queue s c) {list : Nat} (phase : s.phase = .listLoop list now)
    (looped : Looped s list now (c (.list list)) s') : ∃ c', Queue s' c' := by
  have linked := queue.linked
  have here : list < s.timerCount := linked.phase list (by rw [phase]; rfl)
  -- The loop is not the one of `unrefTimeout`: what is pending is a later tick.
  have later : ∀ {p : Phase}, s.pending → p.isUnref = true ∨ s.unrefRetries ≠ 0 := by
    intro p pending
    refine .inr (pending.resolve_left ?_)
    rw [phase]
    rintro ⟨⟩
  cases contents : c (.list list) with
  | nil =>
    rw [contents] at looped
    cases looped with
    | ends => exact ⟨c, queue.same (linked.ends list _) rfl queue.clock rfl later⟩
  | cons first rest =>
    have mem : first ∈ c (.list list) := contents ▸ mem_cons_self
    rw [contents] at looped
    cases looped with
    | waits => exact ⟨c, queue.same (linked.waits list) rfl queue.clock rfl later⟩
    | skips => exact ⟨_, queue.without (linked.skips first _) rfl queue.clock rfl id⟩
    | calls due callback =>
      have called := linked.calls here (linked.known mem) callback now
        (.expired list first s.now true)
      exact ⟨_, queue.without called rfl queue.clock rfl later⟩

theorem unrefed (queue : Queue s c) (unrefed : Unrefed s now (c .unref) s') :
    ∃ c', Queue s' c' := by
  have linked := queue.linked
  cases contents : c .unref with
  | nil =>
    rw [contents] at unrefed
    cases unrefed with
    | ends =>
      have stopped := (linked.setUnref (s.unrefTimer.map
        fun timer => { timer with when_ := -1 }) Option.isSome_map).setIdle .idle rfl rfl rfl
      exact ⟨c, stopped, queue.clock, queue.sorted, queue.positive, absurd contents⟩
  | cons first rest =>
    have mem : first ∈ c .unref := contents ▸ mem_cons_self
    rw [contents] at unrefed
    cases unrefed with
    | waits =>
      have made : s.made .unref := linked.holds.made_of_mem mem
      have started := (linked.setUnref (some ⟨true, s.expiry first⟩) made.symm).setIdle
        .idle rfl rfl rfl
      obtain ⟨timeout, start⟩ := queue.positive first mem
      have sorted := queue.sorted
      rw [contents, pairwise_cons] at sorted
      refine ⟨c, started, queue.clock, queue.sorted, queue.positive, fun _ => .inr ?_⟩
      refine ⟨⟨true, s.expiry first⟩, rfl, rfl, add_nonneg start timeout.le, fun i i_mem => ?_⟩
      rw [contents] at i_mem
      rcases mem_cons.mp i_mem with rfl | later
      · exact le_refl _
      · exact sorted.1 i later
    | skips => exact ⟨_, queue.without (linked.remove first) rfl queue.clock rfl id⟩
    | @calls _ _ onTimeout callback =>
      have called := (linked.remove first).setPhase
        (.unrefCallback now first onTimeout.repeat_) (by rintro l ⟨⟩)
          (by rintro i ⟨⟩; exact linked.known mem) (linked.repeat_of_wrapper callback)
      exact ⟨_, queue.without called rfl queue.clock rfl fun _ => .inl rfl⟩

/-- Every step keeps the invariant, with no condition on the action. -/
theorem step (queue : Queue s s.contents) {action : Action} (stepped : s.step action = some s') :
    Queue s' s'.contents := by
  by_cases call : action.isCall = true
  · exact queue_kept.call queue call stepped
  have linked := queue.linked
  suffices ∃ c, Queue s' c by
    obtain ⟨c, after⟩ := this
    rwa [after.linked.contents_eq]
  have later : ∀ {p : Phase}, s.phase.isUnref = false → s.pending →
      p.isUnref = true ∨ s.unrefRetries ≠ 0 := by
    intro p not_unref pending
    refine .inr (pending.resolve_left ?_)
    simp [not_unref]
  cases linked.turn (Bool.eq_false_iff.mpr call) stepped with
  | tick clock =>
    exact ⟨_, queue.same (linked.setTicks _ _ linked.retries s.unrefRetries) rfl clock rfl id⟩
  | unrefActive known => exact queue.unrefActive known
  | @returns list first now repeat_ phase =>
    obtain ⟨c', after⟩ := queue.rearm (linked.first first (by rw [phase]; rfl))
      repeat_ (fun r mem => linked.repeats r (by rw [phase]; exact mem))
    have still := (s.phase_rearm first repeat_).trans phase
    refine ⟨c', after.same (after.linked.returned still) rfl after.clock rfl fun pending => ?_⟩
    refine .inr (pending.resolve_left ?_)
    rw [still]
    exact Bool.false_ne_true
  | @returnsUnref first now repeat_ phase =>
    obtain ⟨c', after⟩ := queue.rearm (linked.first first (by rw [phase]; rfl))
      repeat_ (fun r mem => linked.repeats r (by rw [phase]; exact mem))
    have running := after.linked.setIdle (.unrefLoop now) rfl rfl rfl
    exact ⟨c', after.same running rfl after.clock rfl fun _ => .inl rfl⟩
  | throws phase =>
    exact ⟨_, queue.same (linked.thrown phase) rfl queue.clock rfl
      (later (by rw [phase]; rfl))⟩
  | throwsUnref =>
    have idle := (linked.setTicks s.now _ linked.retries (s.unrefRetries + 1)).setIdle
      .idle rfl rfl rfl
    exact ⟨_, queue.same idle rfl queue.clock rfl fun _ => .inr (Nat.succ_ne_zero _)⟩
  | loop phase looped => exact queue.looped phase looped
  | unrefLoop phase unrefed => exact queue.unrefed unrefed
  | fire phase here =>
    exact ⟨_, queue.same (linked.fired here) rfl queue.clock rfl (later (by rw [phase]; rfl))⟩
  | @fireUnref when_ phase timer =>
    have running := (linked.setUnref (some ⟨false, when_⟩) (by rw [timer]; rfl)).setIdle
      (.unrefLoop s.now) rfl rfl rfl
    exact ⟨_, running, queue.clock, queue.sorted, queue.positive, fun _ => .inl (.inl rfl)⟩
  | retry phase mem =>
    exact ⟨_, queue.same (linked.retried mem) rfl queue.clock rfl (later (by rw [phase]; rfl))⟩
  | retryUnref =>
    have running := (linked.setTicks s.now _ linked.retries (s.unrefRetries - 1)).setIdle
      (.unrefLoop s.now) rfl rfl rfl
    exact ⟨_, queue.same running rfl queue.clock rfl fun _ => .inl rfl⟩

end Queue

/-- **The queue of `unrefList`.**  In every run the list is sorted by the time at which its items
expire, and outside of `unrefTimeout`, if no tick is left to go on with it, `unrefTimer` is armed
for a time at which the first item has not expired before. -/
theorem unref_queue {now : ℚ} (clock : 0 ≤ now)
    (run : Run State.step (fun _ _ => True) (State.initial now) s) :
    ((s.contents .unref).Pairwise fun i j => s.expiry i ≤ s.expiry j) ∧
      (s.phase.isUnref = false → s.unrefRetries = 0 → ∀ first ∈ (s.contents .unref).head?,
          ∃ timer, s.unrefTimer = some timer ∧ timer.isArmed = true ∧ 0 ≤ timer.when_ ∧
            timer.when_ ≤ s.expiry first) := by
  have start : Queue (State.initial now) (State.initial now).contents := by
    exact .initial clock
  have queue := run.invariant (fun s => Queue s s.contents) start
    fun queue _ stepped => queue.step stepped
  refine ⟨queue.sorted, fun outside no_tick first mem => ?_⟩
  have here : first ∈ s.contents .unref := mem_of_mem_head? mem
  rcases queue.armed (ne_nil_of_mem here) with pending | armed
  · rcases pending with running | tick
    · simp [outside] at running
    · exact absurd no_tick tick
  obtain ⟨timer, armed⟩ := armed
  exact ⟨timer, armed.here, armed.armed, armed.when_nonneg, armed.when_le first here⟩

/-- Two timeouts have been started, and the shorter one is the first. -/
theorem unref_queue_two : ∃ s : State, s.contents .unref = [1, 0] ∧
      ((s.contents .unref).Pairwise fun i j => s.expiry i ≤ s.expiry j) ∧
        ∃ timer, s.unrefTimer = some timer ∧ timer.isArmed = true ∧ 0 ≤ timer.when_ ∧
          timer.when_ ≤ s.expiry 1 := by
  obtain ⟨s, run, items, idle, no_tick⟩ := Run.exists_of_exec State.step (fun _ _ => True)
    (State.initial 0)
    (fun s => s.contents .unref = [1, 0] ∧ s.phase = .idle ∧ s.unrefRetries = 0)
    [.create 10 true, .create 5 true, .unrefActive 0, .tick 2, .unrefActive 1]
    (by decide +kernel)
  obtain ⟨sorted, armed⟩ := unref_queue (le_refl 0) run
  refine ⟨s, items, sorted, armed (by rw [idle]; rfl) no_tick 1 ?_⟩
  rw [items]
  rfl

end IoJs.Timers
