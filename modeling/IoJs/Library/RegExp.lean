import Mathlib.Data.List.Forall2

/-!
# Patterns of repeated atoms and anchors

A pattern is a list of alternatives and an alternative a list of items. An item is an atom, which
one element satisfies, an atom repeated, or an anchor. A matcher that backtracks tries the ways of
an item one after another, so whether there is a match does not depend on their order.
-/

namespace IoJs.Library.RegExp

open List

/-- An item of a pattern: an atom, repeated or not, or an anchor. -/
inductive Item (A : Type) where
  | one (atom : A)
  | star (atom : A)
  | plus (atom : A)
  | opt (atom : A)
  | start
  | stop
  deriving DecidableEq

/-- The alternatives of a pattern, each a sequence of items. -/
abbrev Pattern (A : Type) := List (List (Item A))

section Matching

variable {A α : Type}

/-- An element that satisfies `p`, then `k`; the flag of `k` says that nothing was read yet. -/
def once (p : α → Bool) (k : Bool → List α → Bool) : List α → Bool
  | [] => false
  | x :: rest => p x && k false rest

/-- Elements that satisfy `p`, as many as there is a match for, then `k`. -/
def many (p : α → Bool) (k : Bool → List α → Bool) : Bool → List α → Bool
  | first, [] => k first []
  | first, x :: rest => k first (x :: rest) || (p x && many p k false rest)

variable (sat : A → α → Bool)

/-- Do the items match at the head of the input? -/
def run : List (Item A) → Bool → List α → Bool
  | [], _, _ => true
  | .one a :: items, _, input => once (sat a) (run items) input
  | .star a :: items, first, input => many (sat a) (run items) first input
  | .plus a :: items, _, input => once (sat a) (many (sat a) (run items)) input
  | .opt a :: items, first, input => run items first input || once (sat a) (run items) input
  | .start :: items, first, input => first && run items first input
  | .stop :: items, first, input => input.isEmpty && run items first input

/-- Do the items match somewhere in the input? -/
def search (items : List (Item A)) : Bool → List α → Bool
  | first, [] => run sat items first []
  | first, x :: rest => run sat items first (x :: rest) || search items false rest

/-- Does one of the alternatives match somewhere in the input? -/
def Pattern.test (pattern : Pattern A) (input : List α) : Bool :=
  pattern.any fun items => search sat items true input

/-! ## What matches -/

variable {sat} {p : α → Bool} {k : Bool → List α → Bool} {items : List (Item A)} {a : A}
  {first : Bool} {input : List α}

theorem once_iff :
    once p k input = true ↔ ∃ x rest, input = x :: rest ∧ p x = true ∧ k false rest = true := by
  cases input with
  | nil => simp [once]
  | cons => simp [once]

theorem many_iff : many p k first input = true ↔
    ∃ taken rest, input = taken ++ rest ∧ (∀ x ∈ taken, p x = true) ∧
      k (first && taken.isEmpty) rest = true := by
  induction input generalizing first with
  | nil =>
    rw [many]
    constructor
    · intro rest
      exact ⟨[], [], rfl, by simp, by simpa using rest⟩
    rintro ⟨taken, rest, split, -, holds⟩
    obtain ⟨rfl, rfl⟩ := append_eq_nil_iff.mp split.symm
    simpa using holds
  | cons x input ih =>
    rw [many, Bool.or_eq_true, Bool.and_eq_true, ih]
    constructor
    · rintro (holds | ⟨here, taken, rest, rfl, all, holds⟩)
      · exact ⟨[], x :: input, rfl, by simp, by simpa using holds⟩
      refine ⟨x :: taken, rest, rfl, ?_, by simpa using holds⟩
      intro y mem
      rcases mem_cons.mp mem with rfl | mem
      · exact here
      · exact all y mem
    rintro ⟨taken, rest, split, all, holds⟩
    cases taken with
    | nil =>
      left
      rw [split]
      simpa using holds
    | cons y taken =>
      right
      obtain ⟨rfl, rfl⟩ := split
      refine ⟨all x mem_cons_self, taken, rest, rfl, ?_, by simpa using holds⟩
      intro z mem
      exact all z (mem_cons_of_mem x mem)

theorem search_iff : search sat items first input = true ↔ ∃ before rest, input = before ++ rest ∧
    run sat items (first && before.isEmpty) rest = true := by
  induction input generalizing first with
  | nil =>
    rw [search]
    constructor
    · intro holds
      exact ⟨[], [], rfl, by simpa using holds⟩
    rintro ⟨before, rest, split, holds⟩
    obtain ⟨rfl, rfl⟩ := append_eq_nil_iff.mp split.symm
    simpa using holds
  | cons x input ih =>
    rw [search, Bool.or_eq_true, ih]
    constructor
    · rintro (holds | ⟨before, rest, rfl, holds⟩)
      · exact ⟨[], x :: input, rfl, by simpa using holds⟩
      · exact ⟨x :: before, rest, rfl, by simpa using holds⟩
    rintro ⟨before, rest, split, holds⟩
    cases before with
    | nil =>
      left
      rw [split]
      simpa using holds
    | cons y before =>
      right
      obtain ⟨rfl, rfl⟩ := split
      exact ⟨before, rest, rfl, by simpa using holds⟩

theorem search_start : search sat (.start :: items) true input = run sat items true input := by
  rw [Bool.eq_iff_iff, search_iff]
  constructor
  · rintro ⟨before, rest, rfl, holds⟩
    rw [run, Bool.and_eq_true, Bool.true_and] at holds
    obtain ⟨empty, holds⟩ := holds
    obtain rfl := List.isEmpty_iff.mp empty
    simpa using holds
  intro holds
  refine ⟨[], input, rfl, ?_⟩
  rw [run, isEmpty_nil, Bool.and_self, holds, Bool.and_self]

end Matching

end IoJs.Library.RegExp
