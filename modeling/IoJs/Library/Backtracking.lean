import Mathlib.Data.List.Basic

/-!
# Patterns that are matched by backtracking

A matcher tries the ways of a pattern one after the other, each with all that follows it, and takes
the first one that leads to a match. What follows is a continuation, which gets the rest of the
input; what a group has captured is what has been consumed between two rests.
-/

namespace IoJs.Library.Backtracking

open List Option

/-- A pattern; what is repeated is one element that satisfies a predicate. -/
inductive Regex (α : Type*) where
  | empty
  | one (p : α → Bool)
  | many (p : α → Bool)
  | manyLazy (p : α → Bool)
  | seq (first second : Regex α)
  | alt (first second : Regex α)

/-- What has been consumed of an input, of which a rest is left -/
def consumed {α : Type*} (input rest : List α) : List α := input.take (input.length - rest.length)

@[simp]
theorem consumed_append {α : Type*} (l rest : List α) : consumed (l ++ rest) rest = l := by
  rw [consumed, length_append, Nat.add_sub_cancel, take_left]

namespace Regex

variable {α β : Type*} {s : Regex α}

/-- `r?` -/
def opt (r : Regex α) : Regex α := alt r empty

def someLazy (p : α → Bool) : Regex α := seq (one p) (manyLazy p)

/-- As many elements as there is a match for, then what follows -/
def execMany (p : α → Bool) (next : List α → Option β) : List α → Option β
  | [] => next []
  | x :: rest =>
    if p x then (execMany p next rest).or (next (x :: rest)) else next (x :: rest)

/-- As few elements as there is a match for, then what follows -/
def execManyLazy (p : α → Bool) (next : List α → Option β) : List α → Option β
  | [] => next []
  | x :: rest =>
    if p x then (next (x :: rest)).or (execManyLazy p next rest) else next (x :: rest)

/-- The matcher: the first way of a pattern that leads to a match with what follows it -/
def exec : Regex α → (List α → Option β) → List α → Option β
  | empty, next, input => next input
  | one _, _, [] => none
  | one p, next, x :: rest => if p x then next rest else none
  | many p, next, input => execMany p next input
  | manyLazy p, next, input => execManyLazy p next input
  | seq first second, next, input => first.exec (second.exec next) input
  | alt first second, next, input => (first.exec next input).or (second.exec next input)

/-- The texts of a pattern -/
inductive Matches : Regex α → List α → Prop where
  | empty : Matches empty []
  | one {p : α → Bool} {x : α} (holds : p x = true) : Matches (one p) [x]
  | many {p : α → Bool} {l : List α} (all : ∀ x ∈ l, p x = true) : Matches (many p) l
  | manyLazy {p : α → Bool} {l : List α} (all : ∀ x ∈ l, p x = true) : Matches (manyLazy p) l
  | seq {first second : Regex α} {l m : List α} (left : Matches first l)
      (right : Matches second m) :
      Matches (seq first second) (l ++ m)
  | altLeft {first second : Regex α} {l : List α} (left : Matches first l) :
      Matches (alt first second) l
  | altRight {first second : Regex α} {l : List α} (right : Matches second l) :
      Matches (alt first second) l

variable {p : α → Bool} {next : List α → Option β} {input rest l : List α} {b : β} {r : Regex α}
  {x : α}

/-! ## Texts -/

@[simp]
theorem matches_empty_iff : Matches empty l ↔ l = [] := by
  constructor
  · rintro ⟨⟩
    rfl
  rintro rfl
  exact .empty

@[simp]
theorem matches_one_iff : Matches (one p) l ↔ ∃ x, p x = true ∧ l = [x] := by
  constructor
  · intro text
    cases text with
    | one holds => exact ⟨_, holds, rfl⟩
  rintro ⟨x, holds, rfl⟩
  exact .one holds

@[simp]
theorem matches_many_iff : Matches (many p) l ↔ ∀ x ∈ l, p x = true := by
  constructor
  · intro text
    cases text with
    | many all => exact all
  · exact .many

@[simp]
theorem matches_manyLazy_iff : Matches (manyLazy p) l ↔ ∀ x ∈ l, p x = true := by
  constructor
  · intro text
    cases text with
    | manyLazy all => exact all
  · exact .manyLazy

@[simp]
theorem matches_seq_iff : Matches (seq r s) l ↔ ∃ m n, Matches r m ∧ Matches s n ∧ l = m ++ n := by
  constructor
  · intro text
    cases text with
    | seq left right => exact ⟨_, _, left, right, rfl⟩
  rintro ⟨m, n, left, right, rfl⟩
  exact .seq left right

@[simp]
theorem matches_alt_iff : Matches (alt r s) l ↔ Matches r l ∨ Matches s l := by
  constructor
  · intro text
    cases text with
    | altLeft left => exact .inl left
    | altRight right => exact .inr right
  rintro (left | right)
  · exact .altLeft left
  · exact .altRight right

theorem matches_someLazy_iff : Matches (someLazy p) l ↔ l ≠ [] ∧ ∀ x ∈ l, p x = true := by
  rw [someLazy, matches_seq_iff]
  constructor
  · rintro ⟨m, n, left, right, rfl⟩
    obtain ⟨x, holds, rfl⟩ := matches_one_iff.mp left
    exact ⟨cons_ne_nil x n, forall_mem_cons.mpr ⟨holds, matches_manyLazy_iff.mp right⟩⟩
  rintro ⟨some_, all⟩
  obtain ⟨x, l, rfl⟩ := exists_cons_of_ne_nil some_
  obtain ⟨holds, all⟩ := forall_mem_cons.mp all
  exact ⟨[x], l, .one holds, .manyLazy all, rfl⟩

/-! ## Ways -/

theorem exists_of_execMany (found : execMany p next input = some b) :
    ∃ l rest, input = l ++ rest ∧ (∀ x ∈ l, p x = true) ∧ next rest = some b := by
  induction input with
  | nil => exact ⟨[], [], rfl, forall_mem_nil _, found⟩
  | cons x input ih =>
    rw [execMany] at found
    split_ifs at found with holds
    · rcases or_eq_some_iff.mp found with later | ⟨-, here⟩
      · obtain ⟨l, rest, rfl, all, found⟩ := ih later
        exact ⟨x :: l, rest, rfl, forall_mem_cons.mpr ⟨holds, all⟩, found⟩
      · exact ⟨[], x :: input, rfl, forall_mem_nil _, here⟩
    · exact ⟨[], x :: input, rfl, forall_mem_nil _, found⟩

theorem exists_of_execManyLazy (found : execManyLazy p next input = some b) :
    ∃ l rest, input = l ++ rest ∧ (∀ x ∈ l, p x = true) ∧ next rest = some b := by
  induction input with
  | nil => exact ⟨[], [], rfl, forall_mem_nil _, found⟩
  | cons x input ih =>
    rw [execManyLazy] at found
    split_ifs at found with holds
    · rcases or_eq_some_iff.mp found with here | ⟨-, later⟩
      · exact ⟨[], x :: input, rfl, forall_mem_nil _, here⟩
      obtain ⟨l, rest, rfl, all, found⟩ := ih later
      exact ⟨x :: l, rest, rfl, forall_mem_cons.mpr ⟨holds, all⟩, found⟩
    · exact ⟨[], x :: input, rfl, forall_mem_nil _, found⟩

theorem exists_of_exec (found : r.exec next input = some b) :
    ∃ l rest, input = l ++ rest ∧ Matches r l ∧ next rest = some b := by
  induction r generalizing next input with
  | empty => exact ⟨[], input, rfl, .empty, found⟩
  | one p =>
    cases input with
    | nil => cases found
    | cons x rest =>
      rw [exec] at found
      split_ifs at found with holds
      exact ⟨[x], rest, rfl, .one holds, found⟩
  | many p =>
    obtain ⟨l, rest, rfl, all, found⟩ := exists_of_execMany found
    exact ⟨l, rest, rfl, .many all, found⟩
  | manyLazy p =>
    obtain ⟨l, rest, rfl, all, found⟩ := exists_of_execManyLazy found
    exact ⟨l, rest, rfl, .manyLazy all, found⟩
  | seq first second ihFirst ihSecond =>
    obtain ⟨l, rest, rfl, left, found⟩ := ihFirst found
    obtain ⟨m, rest, rfl, right, found⟩ := ihSecond found
    exact ⟨l ++ m, rest, (append_assoc l m rest).symm, .seq left right, found⟩
  | alt first second ihFirst ihSecond =>
    rcases or_eq_some_iff.mp found with here | ⟨-, there⟩
    · obtain ⟨l, rest, rfl, left, found⟩ := ihFirst here
      exact ⟨l, rest, rfl, .altLeft left, found⟩
    obtain ⟨l, rest, rfl, right, found⟩ := ihSecond there
    exact ⟨l, rest, rfl, .altRight right, found⟩

theorem isSome_execMany (all : ∀ x ∈ l, p x = true) (some_ : (next rest).isSome = true) :
    (execMany p next (l ++ rest)).isSome = true := by
  induction l with
  | nil =>
    cases rest with
    | nil => exact some_
    | cons =>
      rw [nil_append, execMany]
      split_ifs
      · rw [isSome_or, some_, Bool.or_true]
      · exact some_
  | cons x l ih =>
    obtain ⟨holds, all⟩ := forall_mem_cons.mp all
    rw [cons_append, execMany, if_pos holds, isSome_or, ih all, Bool.true_or]

theorem isSome_execManyLazy : (execManyLazy p next input).isSome =
    (execMany p next input).isSome := by
  induction input with
  | nil => rfl
  | cons x rest ih =>
    rw [execMany, execManyLazy]
    split_ifs
    · rw [isSome_or, isSome_or, ih, Bool.or_comm]
    · rfl

theorem isSome_exec (text : Matches r l) (some_ : (next rest).isSome = true) :
    (r.exec next (l ++ rest)).isSome = true := by
  induction text generalizing next rest with
  | empty => exact some_
  | one holds =>
    rw [singleton_append, exec, if_pos holds]
    exact some_
  | many all => exact isSome_execMany all some_
  | manyLazy all =>
    rw [exec, isSome_execManyLazy]
    exact isSome_execMany all some_
  | seq left right ihLeft ihRight =>
    rw [append_assoc]
    exact ihLeft (ihRight some_)
  | altLeft left ih => rw [exec, isSome_or, ih some_, Bool.true_or]
  | altRight right ih => rw [exec, isSome_or, ih some_, Bool.or_true]

theorem isSome_exec_iff : (r.exec next input).isSome = true ↔
    ∃ l rest, input = l ++ rest ∧ Matches r l ∧ (next rest).isSome = true := by
  constructor
  · intro some_
    obtain ⟨b, found⟩ := isSome_iff_exists.mp some_
    obtain ⟨l, rest, rfl, text, found⟩ := exists_of_exec found
    exact ⟨l, rest, rfl, text, by rw [found]; rfl⟩
  rintro ⟨l, rest, rfl, text, some_⟩
  exact isSome_exec text some_

/-! ## Lazy repetitions -/

theorem exec_manyLazy_cons (holds : p x = true) :
    (manyLazy p).exec next (x :: rest) = (next (x :: rest)).or ((manyLazy p).exec next rest) :=
  if_pos holds

end Regex

end IoJs.Library.Backtracking
