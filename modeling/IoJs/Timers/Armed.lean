import IoJs.Library.Histories
import IoJs.Timers.Loops

/-!
# Items that are armed

If no timeout is taken from the loop by `_unrefActive`, then the lists agree with the trace: an item
is in a list if it has been armed and nothing has happened to it since, and the items of a list are
in the order in which they have been armed.
-/

namespace IoJs.Timers

open IoJs.Library List

/-- What the event happens to -/
def Event.item : Event → Nat
  | .armed i .. => i
  | .cleared i _ => i
  | .expired _ i .. => i

/-- The last thing that has happened to the item is that it has been armed, by the `n`th event. -/
def LastArmed (trace : List Event) (i list : Nat) (start msecs : ℚ) (n : Nat) : Prop :=
  Latest Event.item trace (.armed i list start msecs) n

/-- The item is armed. -/
def Armed (trace : List Event) (i : Nat) : Prop :=
  ∃ list start msecs n, LastArmed trace i list start msecs n

/-- In the list, `i` had been armed, when the trace was `trace`, before `j` was when it was
`trace'`. -/
def Before (list : Nat) (trace : List Event) (i : Nat) (trace' : List Event) (j : Nat) : Prop :=
  ∀ ⦃start msecs start' msecs' n n'⦄, LastArmed trace i list start msecs n →
    LastArmed trace' j list start' msecs' n' → n < n'

variable {trace trace' : List Event} {event : Event} {i j list : Nat} {start msecs : ℚ} {n : Nat}

theorem lastArmed_snoc (other : event.item ≠ i) :
    LastArmed (trace ++ [event]) i list start msecs n ↔ LastArmed trace i list start msecs n :=
  latest_snoc other

theorem armed_snoc (other : event.item ≠ i) : Armed (trace ++ [event]) i ↔ Armed trace i := by
  simp only [Armed, lastArmed_snoc other]

theorem not_armed_snoc (same : event.item = i)
    (disarms : ∀ list start msecs, event ≠ .armed i list start msecs) :
    ¬Armed (trace ++ [event]) i := by
  rintro ⟨list, start, msecs, n, last⟩
  exact disarms list start msecs (Latest.eq_new last same).1.symm

theorem Before.snoc_left (before : Before list trace i trace' j) (other : event.item ≠ i) :
    Before list (trace ++ [event]) i trace' j := by
  intro start msecs start' msecs' n n' last last'
  exact before ((lastArmed_snoc other).mp last) last'

theorem Before.snoc_right (before : Before list trace i trace' j) (other : event.item ≠ j) :
    Before list trace i (trace' ++ [event]) j := by
  intro start msecs start' msecs' n n' last last'
  exact before last ((lastArmed_snoc other).mp last')

theorem before_new {list' : Nat} (short : trace.length ≤ trace'.length) :
    Before list trace i (trace' ++ [.armed j list' start msecs]) j := by
  intro start msecs start' msecs' n n' last last'
  obtain ⟨-, rfl⟩ := Latest.eq_new last' rfl
  exact Nat.lt_of_lt_of_le last.lt_length short

def Action.isUnref : Action → Bool
  | .unrefActive _ => true
  | _ => false

/-- There is no `unrefList`, and nothing works on it. -/
structure Ordinary (s : State) : Prop where
  unrefTimer : s.unrefTimer = none
  outside : s.phase.isUnref = false
  no_tick : s.unrefRetries = 0

theorem Ordinary.not_unref {s : State} {phase : Phase} (ordinary : Ordinary s)
    (here : s.phase = phase) (isUnref : phase.isUnref = true) : False := by
  rw [← here, ordinary.outside] at isUnref
  cases isUnref

/-- The lists agree with the trace. -/
structure Recorded (s : State) (c : Head → List Nat) : Prop where
  linked : Linked s c
  ordinary : Ordinary s
  latest : ∀ {l i}, i ∈ c (.list l) →
    ∃ n, LastArmed s.trace i l (s.items i).idleStart (s.timers l).msecs n
  order : ∀ l, (c (.list l)).Pairwise fun i j => Before l s.trace i s.trace j
  absent : ∀ {i}, (∀ h, i ∉ c h) → ¬Armed s.trace i

namespace Recorded

variable {s s' : State} {c c' : Head → List Nat}

theorem initial (now : ℚ) : Recorded (State.initial now) fun _ => [] where
  linked := .initial now
  ordinary := ⟨rfl, rfl, rfl⟩
  latest := by rintro l i ⟨⟩
  order := fun _ => .nil
  absent := by
    rintro i - ⟨list, start, msecs, n, last⟩
    exact absurd last.lt_length (Nat.not_lt_zero n)

section

variable (recorded : Recorded s c)
include recorded

theorem not_unref : c .unref = [] := by
  refine (recorded.linked.holds.unmade ?_).1
  rw [Linked.made_unref_iff, recorded.ordinary.unrefTimer]
  exact Bool.false_ne_true

theorem mem_list {h : Head} (mem : i ∈ c h) : ∃ l, h = .list l := by
  cases h with
  | list l => exact ⟨l, rfl⟩
  | unref =>
    rw [recorded.not_unref] at mem
    cases mem

theorem armed_iff : Armed s.trace i ↔ ∃ l, i ∈ c (.list l) := by
  constructor
  · intro armed
    by_contra nowhere
    refine recorded.absent (fun h mem => ?_) armed
    obtain ⟨l, rfl⟩ := recorded.mem_list mem
    exact nowhere ⟨l, mem⟩
  rintro ⟨l, mem⟩
  obtain ⟨n, last⟩ := recorded.latest mem
  exact ⟨l, _, _, n, last⟩

theorem same (linked : Linked s' c)
    (times : ∀ {h i}, i ∈ c h → (s'.items i).idleStart = (s.items i).idleStart)
    (durations : ∀ {l}, l < s.timerCount → (s'.timers l).msecs = (s.timers l).msecs)
    (ordinary : Ordinary s') (trace : s'.trace = s.trace) : Recorded s' c where
  linked := linked
  ordinary := ordinary
  latest := by
    intro l i mem
    rw [trace, times mem, durations (recorded.linked.holds.made_of_mem mem)]
    exact recorded.latest mem
  order := by
    intro l
    rw [trace]
    exact recorded.order l
  absent := by
    intro i nowhere
    rw [trace]
    exact recorded.absent nowhere

theorem leave (event : Event) (linked : Linked s' (without i c)) (same : event.item = i)
    (disarms : ∀ list start msecs, event ≠ .armed i list start msecs)
    (times : ∀ {j}, j ≠ i → (s'.items j).idleStart = (s.items j).idleStart)
    (durations : ∀ {l}, l < s.timerCount → (s'.timers l).msecs = (s.timers l).msecs)
    (ordinary : Ordinary s') (trace : s'.trace = s.trace ++ [event]) :
    Recorded s' (without i c) := by
  have nodup := recorded.linked.holds.nodup
  have other : ∀ {h j}, j ∈ without i c h → j ≠ i ∧ j ∈ c h := fun mem =>
    (mem_without (nodup _)).mp mem
  refine ⟨linked, ordinary, ?_, ?_, ?_⟩
  · intro l j mem
    obtain ⟨distinct, old⟩ := other mem
    obtain ⟨n, last⟩ := recorded.latest old
    rw [trace, times distinct, durations (recorded.linked.holds.made_of_mem old)]
    exact ⟨n, (lastArmed_snoc (same ▸ Ne.symm distinct)).mpr last⟩
  · intro l
    rw [trace]
    refine ((recorded.order l).sublist erase_sublist).imp_of_mem ?_
    intro j j' mem mem' before
    exact (before.snoc_left (same ▸ (other mem).1.symm)).snoc_right (same ▸ (other mem').1.symm)
  intro j nowhere
  rw [trace]
  by_cases eq : j = i
  · subst eq
    exact not_armed_snoc same disarms
  rw [armed_snoc (same ▸ Ne.symm eq)]
  exact recorded.absent fun h mem => nowhere h ((mem_without (nodup h)).mpr ⟨eq, mem⟩)

theorem enter (here : list < s.timerCount) (known : i < s.itemCount)
    (duration : (s.timers list).msecs = msecs) :
    Recorded (s.enter i list msecs) (placed i (.list list) c) := by
  have linked : Linked (s.enter i list msecs) _ := recorded.linked.enter here known
  refine ⟨linked, ⟨recorded.ordinary.unrefTimer, recorded.ordinary.outside,
    recorded.ordinary.no_tick⟩, ?_, ?_, ?_⟩
  · intro l j mem
    rcases (mem_placed recorded.linked.holds).mp mem with ⟨rfl, same⟩ | ⟨other, old⟩
    · cases same
      have kept : ((s.enter j list msecs).timers list).msecs = msecs := duration
      rw [State.items_enter_self, kept]
      exact ⟨_, Latest.new s.trace _⟩
    obtain ⟨n, last⟩ := recorded.latest old
    rw [State.items_enter_of_ne other]
    exact ⟨n, (lastArmed_snoc (Ne.symm other)).mpr last⟩
  · intro l
    apply pairwise_placed (recorded.linked.holds.nodup _) (recorded.order l)
    · intro j j' other other' before
      have apart : (Event.armed i list s.now msecs).item ≠ j := other.symm
      have apart' : (Event.armed i list s.now msecs).item ≠ j' := other'.symm
      exact (before.snoc_left apart).snoc_right apart'
    rintro ⟨⟩ j - other
    exact (before_new (Nat.le_refl _)).snoc_left other.symm
  intro j nowhere
  have other : j ≠ i := by
    rintro rfl
    exact nowhere (.list list) ((mem_placed recorded.linked.holds).mpr (.inl ⟨rfl, rfl⟩))
  refine mt (armed_snoc (Ne.symm other)).mp (recorded.absent fun h mem => ?_)
  exact nowhere h ((mem_placed recorded.linked.holds).mpr (.inr ⟨other, mem⟩))

theorem unenroll (i : Nat) : Recorded (s.unenroll i) (without i c) := by
  obtain ⟨lists, timers, eq, durations⟩ := (s.remove i).stopEmpty_eq (s.items i).idleTimeout
  have linked := recorded.linked.unenroll i
  rw [State.unenroll, eq] at linked ⊢
  have others : ∀ {s' : State} {item : Item} {j}, j ≠ i →
    (s'.setItem i item).items j = s'.items j :=
    fun other => State.items_setItem_of_ne other _ _
  refine recorded.leave (.cleared i (s.items i).onTimeout.isNone) linked rfl
    (by rintro list start msecs ⟨⟩) (fun {j} other => ?_) (fun {l} _ => durations l)
    ⟨recorded.ordinary.unrefTimer, recorded.ordinary.outside, recorded.ordinary.no_tick⟩ rfl
  simp only [State.log, others other]
  rfl

end

theorem quiet (recorded : Recorded s s.contents) (quiet : Quiet s s') : Recorded s' s.contents := by
  have ordinary := recorded.ordinary
  refine recorded.same quiet.linked (fun mem => (quiet.times mem).1) (fun _ => ?_) ⟨?_, ?_, ?_⟩
    quiet.trace
  · rw [quiet.timers]
  · exact quiet.unrefTimer.trans ordinary.unrefTimer
  · rw [quiet.phase]
    exact ordinary.outside
  · exact quiet.unrefRetries.trans ordinary.no_tick

/-! ## The loop -/

variable {first : Nat} {now : ℚ} {repeat_ : Option ℚ} {onTimeout : OnTimeout}

section

variable (recorded : Recorded s c)
include recorded

theorem ends (list : Nat) (msecs : ℚ) :
    Recorded { s.closeTimer list with lists := s.lists.delete msecs, phase := .idle } c :=
  recorded.same (recorded.linked.ends list msecs) (fun _ => rfl)
    (fun {l} _ => State.msecs_setTimer { s.timers list with isOpen := false } rfl l)
    ⟨recorded.ordinary.unrefTimer, rfl, recorded.ordinary.no_tick⟩ rfl

theorem waits (list : Nat) : Recorded { s.startTimer list with phase := .idle } c :=
  recorded.same (recorded.linked.waits list) (fun _ => rfl)
    (fun {l} _ => State.msecs_setTimer { s.timers list with isArmed := true } rfl l)
    ⟨recorded.ordinary.unrefTimer, rfl, recorded.ordinary.no_tick⟩ rfl

theorem skips (list first : Nat) (now : ℚ) :
    Recorded ((s.remove first).log (.expired list first now false)) (without first c) :=
  recorded.leave (.expired list first now false) (recorded.linked.skips first _) rfl
    (by rintro list start msecs ⟨⟩) (fun _ => rfl) (fun _ => rfl)
    ⟨recorded.ordinary.unrefTimer, recorded.ordinary.outside, recorded.ordinary.no_tick⟩ rfl

theorem calls (here : list < s.timerCount) (known : first < s.itemCount)
    (callback : (s.items first).onTimeout = some onTimeout) (now now' : ℚ) :
    Recorded { (s.remove first).log (.expired list first now' true) with
      phase := .listCallback list now first onTimeout.repeat_ } (without first c) :=
  recorded.leave (.expired list first now' true)
    (recorded.linked.calls here known callback now _) rfl
    (by rintro list start msecs ⟨⟩) (fun _ => rfl) (fun _ => rfl)
    ⟨recorded.ordinary.unrefTimer, rfl, recorded.ordinary.no_tick⟩ rfl

theorem returned (phase : s.phase = .listCallback list now first repeat_) :
    Recorded { s with phase := .listLoop list now } c :=
  recorded.same (recorded.linked.returned phase) (fun _ => rfl) (fun _ => rfl)
    ⟨recorded.ordinary.unrefTimer, rfl, recorded.ordinary.no_tick⟩ rfl

theorem thrown (phase : s.phase = .listCallback list now first repeat_) :
    Recorded { s with retries := s.retries ++ [list], phase := .idle } c :=
  recorded.same (recorded.linked.thrown phase) (fun _ => rfl) (fun _ => rfl)
    ⟨recorded.ordinary.unrefTimer, rfl, recorded.ordinary.no_tick⟩ rfl

theorem fired (here : list < s.timerCount) :
    Recorded { s.setTimer list { s.timers list with isArmed := false } with
      phase := .listLoop list s.now } c :=
  recorded.same (recorded.linked.fired here) (fun _ => rfl)
    (fun {l} _ => State.msecs_setTimer { s.timers list with isArmed := false } rfl l)
    ⟨recorded.ordinary.unrefTimer, rfl, recorded.ordinary.no_tick⟩ rfl

theorem retried (mem : list ∈ s.retries) :
    Recorded { s with retries := s.retries.erase list, phase := .listLoop list s.now } c :=
  recorded.same (recorded.linked.retried mem) (fun _ => rfl) (fun _ => rfl)
    ⟨recorded.ordinary.unrefTimer, rfl, recorded.ordinary.no_tick⟩ rfl

theorem ticks (now : ℚ) : Recorded { s with now := now } c :=
  recorded.same (recorded.linked.setTicks now _ recorded.linked.retries s.unrefRetries)
    (fun _ => rfl) (fun _ => rfl)
    ⟨recorded.ordinary.unrefTimer, recorded.ordinary.outside, recorded.ordinary.no_tick⟩ rfl

end

end Recorded

end IoJs.Timers
