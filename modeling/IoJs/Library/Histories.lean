import Mathlib.Data.List.Basic

/-!
# Histories of events

A history grows at its end. `Always proper history` says that each event was proper where it
happened, after the events before it; what is proper is checked when the event is added
(`always_snoc`). `Latest subject history event n` says that `event`, which is at the place `n`, is
the last one about its subject.
-/

namespace IoJs.Library

open List

variable {α ι : Type*} {history : List α} {event event' : α} {n n' : ℕ}

/-! ## What each event satisfies -/

/-- Each event is proper after the ones before it. -/
def Always (proper : List α → α → Prop) (history : List α) : Prop :=
  ∀ ⦃before event after⦄, history = before ++ event :: after → proper before event

theorem always_nil (proper : List α → α → Prop) : Always proper [] := by
  intro before event after split
  exact absurd split.symm (append_ne_nil_of_right_ne_nil _ (cons_ne_nil _ _))

theorem snoc_eq_append_cons {before after : List α}
    (split : history ++ [event] = before ++ event' :: after) :
    history = before ∧ event = event' ∨ ∃ after', history = before ++ event' :: after' := by
  rcases eq_nil_or_concat' after with rfl | ⟨after', last, rfl⟩
  · obtain ⟨same, last⟩ := append_inj' split rfl
    exact .inl ⟨same, head_eq_of_cons_eq last⟩
  rw [← cons_append, ← append_assoc] at split
  exact .inr ⟨after', (append_inj' split rfl).1⟩

theorem Always.snoc {proper : List α → α → Prop} (always : Always proper history)
    (here : proper history event) : Always proper (history ++ [event]) := by
  intro before event' after split
  rcases snoc_eq_append_cons split with ⟨rfl, rfl⟩ | ⟨after', split'⟩
  · exact here
  · exact always split'

/-! ## The latest event about a subject -/

/-- The event at the place `n` is the last one about its subject. -/
def Latest (subject : α → ι) (history : List α) (event : α) (n : ℕ) : Prop :=
  ∃ after, history.drop n = event :: after ∧ ∀ later ∈ after, subject later ≠ subject event

variable {subject : α → ι}

namespace Latest

theorem lt_length (latest : Latest subject history event n) : n < history.length := by
  obtain ⟨after, here, -⟩ := latest
  by_contra beyond
  rw [drop_eq_nil_of_le (Nat.le_of_not_lt beyond)] at here
  cases here

theorem new (history : List α) (event : α) :
    Latest subject (history ++ [event]) event history.length :=
  ⟨[], drop_left, by rintro later ⟨⟩⟩

end Latest

theorem drop_snoc {after : List α} (here : (history ++ [event']).drop n = event :: after) :
    (∃ after', after = after' ++ [event'] ∧ history.drop n = event :: after') ∨
      event = event' ∧ n = history.length := by
  rcases Nat.lt_or_ge n history.length with before | beyond
  · rw [drop_append_of_le_length (Nat.le_of_lt before)] at here
    have some_ : history.drop n ≠ [] := drop_eq_nil_iff.not.mpr (Nat.not_le.mpr before)
    obtain ⟨first, rest, split⟩ := exists_cons_of_ne_nil some_
    rw [split, cons_append, List.cons.injEq] at here
    exact .inl ⟨rest, here.2.symm, here.1 ▸ split⟩
  rw [drop_append, drop_eq_nil_of_le beyond, nil_append] at here
  cases distance : n - history.length with
  | zero =>
    rw [distance] at here
    exact .inr ⟨(head_eq_of_cons_eq here).symm,
      Nat.le_antisymm (Nat.le_of_sub_eq_zero distance) beyond⟩
  | succ k =>
    rw [distance, drop_succ_cons, drop_nil] at here
    cases here

theorem Latest.eq_new (latest : Latest subject (history ++ [event']) event n)
    (same : subject event' = subject event) : event = event' ∧ n = history.length := by
  obtain ⟨after, here, others⟩ := latest
  rcases drop_snoc here with ⟨after', rfl, -⟩ | new
  · exact absurd same (others event' (mem_append_right _ mem_cons_self))
  · exact new

theorem latest_snoc (other : subject event' ≠ subject event) :
    Latest subject (history ++ [event']) event n ↔ Latest subject history event n := by
  constructor
  · rintro ⟨after, here, others⟩
    rcases drop_snoc here with ⟨after', rfl, here'⟩ | ⟨rfl, -⟩
    · exact ⟨after', here', fun later mem => others later (mem_append_left _ mem)⟩
    · exact absurd rfl other
  intro latest
  have before := Nat.le_of_lt latest.lt_length
  obtain ⟨after, here, others⟩ := latest
  refine ⟨after ++ [event'], ?_, fun later mem => ?_⟩
  · rw [drop_append_of_le_length before, here]
    rfl
  rcases mem_append.mp mem with old | new
  · exact others later old
  rw [mem_singleton.mp new]
  exact other

end IoJs.Library
