import IoJs.Timers.Operations
import Mathlib.Tactic.Ring

/-!
# The loops over the lists

What `listOnTimeout` and `unrefTimeout` do at the head of their loops depends on the first item of
the list: there is none, its time has not come, it has lost its callback, or the callback is called.
-/

namespace IoJs.Timers

open IoJs.Library Option

/-- The interval that is started again when the callback has returned -/
def OnTimeout.repeat_ : OnTimeout → Option ℚ
  | .callback => none
  | .wrapper repeat_ => some repeat_

/-- What `listOnTimeout` does, by the contents of its list -/
inductive Looped (s : State) (list : Nat) (now : ℚ) : List Nat → State → Prop where
  | ends : Looped s list now []
      { s.closeTimer list with lists := s.lists.delete (s.timers list).msecs, phase := .idle }
  | waits {first : Nat} {rest : List Nat} :
      now - (s.items first).idleStart < (s.timers list).msecs →
        Looped s list now (first :: rest) { s.startTimer list with phase := .idle }
  | skips {first : Nat} {rest : List Nat} :
      (s.timers list).msecs ≤ now - (s.items first).idleStart → (s.items first).onTimeout = none →
          Looped s list now (first :: rest)
            ((s.remove first).log (.expired list first s.now false))
  | calls {first : Nat} {rest : List Nat} {onTimeout : OnTimeout} :
      (s.timers list).msecs ≤ now - (s.items first).idleStart →
        (s.items first).onTimeout = some onTimeout → Looped s list now (first :: rest)
            { (s.remove first).log (.expired list first s.now true) with
              phase := .listCallback list now first onTimeout.repeat_ }

/-- What `unrefTimeout` does, by the contents of `unrefList` -/
inductive Unrefed (s : State) (now : ℚ) : List Nat → State → Prop where
  | ends : Unrefed s now []
      { s with
        unrefTimer := s.unrefTimer.map fun timer => { timer with when_ := -1 }
        phase := .idle }
  | waits {first : Nat} {rest : List Nat} :
      now - (s.items first).idleStart < (s.items first).idleTimeout →
        Unrefed s now (first :: rest) { s.startUnref (s.expiry first) with phase := .idle }
  | skips {first : Nat} {rest : List Nat} :
      (s.items first).onTimeout = none → Unrefed s now (first :: rest) (s.remove first)
  | calls {first : Nat} {rest : List Nat} {onTimeout : OnTimeout} :
      (s.items first).onTimeout = some onTimeout → Unrefed s now (first :: rest)
          { s.remove first with phase := .unrefCallback now first onTimeout.repeat_ }

/-- What happens that is not a call of the program, where the lists hold `c` -/
inductive Turn (s : State) (c : Head → List Nat) : Action → State → Prop where
  | tick {now : ℚ} : 0 ≤ now → Turn s c (.tick now) { s with now := now }
  | unrefActive {i : Nat} : i < s.itemCount → Turn s c (.unrefActive i) (s.unrefActive i)
  | returns {list first : Nat} {now : ℚ} {repeat_ : Option ℚ} :
      s.phase = .listCallback list now first repeat_ →
        Turn s c .returns { s.rearm first repeat_ with phase := .listLoop list now }
  | returnsUnref {first : Nat} {now : ℚ} {repeat_ : Option ℚ} :
      s.phase = .unrefCallback now first repeat_ →
        Turn s c .returns { s.rearm first repeat_ with phase := .unrefLoop now }
  | throws {list first : Nat} {now : ℚ} {repeat_ : Option ℚ} :
      s.phase = .listCallback list now first repeat_ →
        Turn s c .throws { s with retries := s.retries ++ [list], phase := .idle }
  | throwsUnref {first : Nat} {now : ℚ} {repeat_ : Option ℚ} :
      s.phase = .unrefCallback now first repeat_ →
        Turn s c .throws { s with unrefRetries := s.unrefRetries + 1, phase := .idle }
  | loop {list : Nat} {now : ℚ} {s' : State} :
      s.phase = .listLoop list now → Looped s list now (c (.list list)) s' → Turn s c .advance s'
  | unrefLoop {now : ℚ} {s' : State} :
      s.phase = .unrefLoop now → Unrefed s now (c .unref) s' → Turn s c .advance s'
  | fire {list : Nat} : s.phase = .idle → list < s.timerCount → (s.timers list).isOpen = true →
      (s.timers list).isArmed = true → Turn s c (.fire list)
          { s.setTimer list { s.timers list with isArmed := false } with
            phase := .listLoop list s.now }
  | fireUnref {when_ : ℚ} : s.phase = .idle → s.unrefTimer = some ⟨true, when_⟩ →
      Turn s c .fireUnref
        { s with unrefTimer := some ⟨false, when_⟩, phase := .unrefLoop s.now }
  | retry {list : Nat} : s.phase = .idle → list ∈ s.retries → Turn s c (.retry list)
        { s with retries := s.retries.erase list, phase := .listLoop list s.now }
  | retryUnref : s.phase = .idle → s.unrefRetries ≠ 0 → Turn s c .retryUnref
        { s with unrefRetries := s.unrefRetries - 1, phase := .unrefLoop s.now }

namespace Linked

variable {s s' : State} {c : Head → List Nat}
variable {i list first : Nat} {onTimeout : OnTimeout} {now : ℚ} {repeat_ : Option ℚ}

theorem listOnTimeout (linked : Linked s c) (list : Nat) (now : ℚ) :
    Looped s list now (c (.list list)) (s.listOnTimeout list now) := by
  have peek := linked.holds.peek_eq (.list list)
  rw [State.listOnTimeout]
  cases contents : c (.list list) with
  | nil =>
    rw [contents] at peek
    rw [peek]
    exact .ends
  | cons first rest =>
    rw [contents] at peek
    rw [peek]
    simp only [List.head?_cons, map_some]
    by_cases early : now - (s.items first).idleStart < (s.timers list).msecs
    · rw [if_pos early]
      exact .waits early
    rw [if_neg early]
    have due := not_lt.mp early
    cases callback : (s.items first).onTimeout with
    | none => exact .skips due callback
    | some onTimeout =>
      cases onTimeout with
      | callback | wrapper => exact .calls due callback

theorem remaining_eq (s : State) (now : ℚ) (i : Nat) :
    now + ((s.items i).idleTimeout - (now - (s.items i).idleStart)) = s.expiry i := by
  rw [State.expiry]
  ring

section

variable (linked : Linked s c)
include linked

theorem unrefTimeout (now : ℚ) : Unrefed s now (c .unref) (s.unrefTimeout now) := by
  have peek := linked.holds.peek_eq .unref
  rw [State.unrefTimeout]
  cases contents : c .unref with
  | nil =>
    rw [contents] at peek
    rw [peek]
    exact .ends
  | cons first rest =>
    rw [contents] at peek
    rw [peek]
    simp only [List.head?_cons, map_some]
    by_cases early : now - (s.items first).idleStart < (s.items first).idleTimeout
    · rw [if_pos early, remaining_eq]
      exact .waits early
    rw [if_neg early]
    cases callback : (s.items first).onTimeout with
    | none => exact .skips callback
    | some onTimeout =>
      cases onTimeout with
      | callback | wrapper => exact .calls callback

theorem turn {action : Action} (other : action.isCall = false)
    (stepped : s.step action = some s') : Turn s c action s' := by
  cases action with
  | tick now =>
    obtain ⟨clock, done⟩ := ite_none_right_eq_some.mp stepped
    cases done
    exact .tick clock
  | unrefActive i =>
    obtain ⟨able, done⟩ := ite_none_right_eq_some.mp stepped
    cases done
    exact .unrefActive able.2
  | returns =>
    cases phase : s.phase <;>
      simp only [State.step, phase, Option.some.injEq, reduceCtorEq] at stepped
    · exact stepped ▸ .returns phase
    · exact stepped ▸ .returnsUnref phase
  | throws =>
    cases phase : s.phase <;>
      simp only [State.step, phase, Option.some.injEq, reduceCtorEq] at stepped
    · exact stepped ▸ .throws phase
    · exact stepped ▸ .throwsUnref phase
  | advance =>
    cases phase : s.phase <;>
      simp only [State.step, phase, Option.some.injEq, reduceCtorEq] at stepped
    · exact stepped ▸ .loop phase (linked.listOnTimeout _ _)
    · exact stepped ▸ .unrefLoop phase (linked.unrefTimeout _)
  | fire list =>
    cases phase : s.phase <;> simp only [State.step, phase, reduceCtorEq] at stepped
    obtain ⟨⟨here, open_, armed⟩, done⟩ := ite_none_right_eq_some.mp stepped
    cases done
    exact .fire phase here open_ armed
  | fireUnref =>
    cases phase : s.phase <;> simp only [State.step, phase, reduceCtorEq] at stepped
    cases timer : s.unrefTimer with
    | none => rw [timer] at stepped; cases stepped
    | some timer' =>
      obtain ⟨armed, when_⟩ := timer'
      rw [timer] at stepped
      cases armed <;> cases stepped
      exact .fireUnref phase timer
  | retry list =>
    cases phase : s.phase <;> simp only [State.step, phase, reduceCtorEq] at stepped
    obtain ⟨mem, done⟩ := ite_none_right_eq_some.mp stepped
    cases done
    exact .retry phase mem
  | retryUnref =>
    cases phase : s.phase <;> simp only [State.step, phase, reduceCtorEq] at stepped
    obtain ⟨some_, done⟩ := ite_none_right_eq_some.mp stepped
    cases done
    exact .retryUnref phase some_
  | _ => cases other

/-! ## What the lists hold then -/

theorem ends (list : Nat) (msecs : ℚ) :
    Linked { s.closeTimer list with lists := s.lists.delete msecs, phase := .idle } c :=
  ((linked.closeTimer list).delete msecs).setIdle .idle rfl rfl rfl

theorem waits (list : Nat) : Linked { s.startTimer list with phase := .idle } c :=
  (linked.setTimer { s.timers list with isArmed := true } rfl).setIdle .idle rfl rfl rfl

theorem skips (i : Nat) (event : Event) : Linked ((s.remove i).log event) (without i c) :=
  (linked.remove i).log event

theorem repeat_of_wrapper (callback : (s.items i).onTimeout = some onTimeout) :
    ∀ repeat_ ∈ onTimeout.repeat_, 1 ≤ repeat_ := by
  cases onTimeout with
  | callback => rintro repeat_ ⟨⟩
  | wrapper =>
    rintro repeat_ ⟨⟩
    exact linked.wrapper callback

theorem calls (here : list < s.timerCount) (known : i < s.itemCount)
    (callback : (s.items i).onTimeout = some onTimeout) (now : ℚ) (event : Event) :
    Linked { (s.remove i).log event with phase := .listCallback list now i onTimeout.repeat_ }
      (without i c) := by
  refine ((linked.remove i).log event).setPhase _ ?_ ?_ (linked.repeat_of_wrapper callback)
  · rintro l ⟨⟩
    exact here
  rintro j ⟨⟩
  exact known

theorem returned (phase : s.phase = .listCallback list now first repeat_) :
    Linked { s with phase := .listLoop list now } c := by
  refine linked.setPhase _ ?_ (by rintro i ⟨⟩) (by rintro repeat_ ⟨⟩)
  rintro l ⟨⟩
  exact linked.phase list (by rw [phase]; rfl)

theorem thrown (phase : s.phase = .listCallback list now first repeat_) :
    Linked { s with retries := s.retries ++ [list], phase := .idle } c := by
  refine (linked.setTicks s.now (s.retries ++ [list]) ?_ s.unrefRetries).setIdle .idle rfl rfl rfl
  intro l mem
  rcases List.mem_append.mp mem with old | new
  · exact linked.retries l old
  rw [List.mem_singleton.mp new]
  exact linked.phase list (by rw [phase]; rfl)

theorem fired (here : list < s.timerCount) :
    Linked { s.setTimer list { s.timers list with isArmed := false } with
      phase := .listLoop list s.now } c := by
  refine (linked.setTimer { s.timers list with isArmed := false } rfl).setPhase _ ?_
    (by rintro i ⟨⟩) (by rintro repeat_ ⟨⟩)
  rintro l ⟨⟩
  exact here

theorem retried (mem : list ∈ s.retries) :
    Linked { s with retries := s.retries.erase list, phase := .listLoop list s.now } c := by
  refine (linked.setTicks s.now (s.retries.erase list) ?_ s.unrefRetries).setPhase _ ?_
    (by rintro i ⟨⟩) (by rintro repeat_ ⟨⟩)
  · exact fun l l_mem => linked.retries l (List.mem_of_mem_erase l_mem)
  rintro l ⟨⟩
  exact linked.retries list mem

end

end Linked

end IoJs.Timers
