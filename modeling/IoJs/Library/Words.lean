import Mathlib.Data.List.Basic

/-!
# Code words, cut anywhere

A text is sent as the concatenation of the words of its letters. What has been received of
it is a number of whole words and a proper part of the next one.
-/

namespace IoJs.Library

open List

variable {α β : Type*} (word : α → List β)

/-- A proper part of the first word of a text, or nothing. -/
inductive Unfinished : List β → List α → Prop where
  | none {rest : List α} : Unfinished [] rest
  | part {pending left : List β} {letter : α} {rest : List α}
      (cut : word letter = pending ++ left) (started : pending ≠ []) (open_ : left ≠ []) :
      Unfinished pending (letter :: rest)

theorem append_eq_append_cases {γ : Type*} {xs ys us vs : List γ} (eq : xs ++ ys = us ++ vs) :
    (∃ left, left ≠ [] ∧ us = xs ++ left ∧ ys = left ++ vs) ∨
      ∃ tail, xs = us ++ tail ∧ tail ++ ys = vs := by
  rcases append_eq_append_iff.mp eq with ⟨left, cut, rest⟩ | ⟨tail, cut, rest⟩
  · by_cases none : left = []
    · subst none
      rw [append_nil] at cut
      exact .inr ⟨[], by rw [cut, append_nil], rest⟩
    · exact .inl ⟨left, none, cut, rest⟩
  · exact .inr ⟨tail, cut, rest.symm⟩

theorem exists_cut (text : List α) (received more : List β)
    (sent : received ++ more = text.flatMap word) :
    ∃ whole rest pending, text = whole ++ rest ∧ received = whole.flatMap word ++ pending ∧
      pending ++ more = rest.flatMap word ∧ Unfinished word pending rest := by
  induction text generalizing received with
  | nil =>
    obtain ⟨rfl, rfl⟩ := append_eq_nil_iff.mp sent
    exact ⟨[], [], [], rfl, rfl, rfl, .none⟩
  | cons letter rest ih =>
    by_cases empty : received = []
    · subst empty
      exact ⟨[], letter :: rest, [], rfl, rfl, sent, .none⟩
    rcases append_eq_append_cases sent with ⟨left, open_, cut, -⟩ | ⟨later, cut, tail⟩
    · exact ⟨[], letter :: rest, received, rfl, rfl, sent, .part cut empty open_⟩
    obtain ⟨whole, rest', pending, rfl, rfl, left, unfinished⟩ := ih later tail
    refine ⟨letter :: whole, rest', pending, rfl, ?_, left, unfinished⟩
    rw [cut, flatMap_cons, append_assoc]

end IoJs.Library
