import Mathlib.Data.List.Basic

/-!
# Line endings

A line ends in CR LF, LF or a CR alone. Whether an LF ends a line depends on what was before it, so
`splitLines` is told if the list goes on behind a CR; a list in two parts is split part by part
(`splitLines_append`), when the last line of the first part goes on in the second.
-/

namespace IoJs.Library

open List

variable {α : Type} [DecidableEq α] (cr lf : α)

/-- The line that goes on with these lines -/
def continueWith (line : List α) : List (List α) → List (List α)
  | [] => [line]
  | first :: lines => (line ++ first) :: lines

/-- The lines, cut at each ending; behind a CR, an LF belongs to it. -/
def splitLines (afterReturn : Bool) : List α → List (List α)
  | [] => [[]]
  | a :: l =>
    if a = lf ∧ afterReturn then splitLines false l
    else if a = cr then [] :: splitLines true l
    else if a = lf then [] :: splitLines false l
    else continueWith [a] (splitLines false l)

/-- Is a CR the last thing that was read? -/
def returned (afterReturn : Bool) : List α → Bool
  | [] => afterReturn
  | a :: l => returned (decide (a = cr)) l

/-- An LF at the front is left out. -/
def dropFeed : List α → List α
  | [] => []
  | a :: l => if a = lf then l else a :: l

variable {cr lf} {afterReturn : Bool} {l more line : List α} {lines : List (List α)}

theorem splitLines_cons (a : α) (l : List α) : splitLines cr lf afterReturn (a :: l) =
      if a = lf ∧ afterReturn then splitLines cr lf false l
      else if a = cr then [] :: splitLines cr lf true l
      else if a = lf then [] :: splitLines cr lf false l
      else continueWith [a] (splitLines cr lf false l) := rfl

omit [DecidableEq α] in
theorem continueWith_ne_nil : continueWith line lines ≠ [] := by
  cases lines with
  | nil | cons => exact cons_ne_nil _ _

omit [DecidableEq α] in
theorem continueWith_nil (some_ : lines ≠ []) : continueWith [] lines = lines := by
  cases lines with
  | nil => exact absurd rfl some_
  | cons => rfl

omit [DecidableEq α] in
theorem continueWith_append (line more : List α) (lines : List (List α)) :
    continueWith (line ++ more) lines = continueWith line (continueWith more lines) := by
  cases lines with
  | nil => rfl
  | cons first lines => exact congrArg (· :: lines) (append_assoc _ _ _)

theorem splitLines_ne_nil : splitLines cr lf afterReturn l ≠ [] := by
  induction l generalizing afterReturn with
  | nil => exact cons_ne_nil _ _
  | cons a l ih =>
    rw [splitLines]
    split_ifs
    · exact ih
    · exact cons_ne_nil _ _
    · exact cons_ne_nil _ _
    · exact continueWith_ne_nil

theorem returned_append (l more : List α) :
    returned cr afterReturn (l ++ more) = returned cr (returned cr afterReturn l) more := by
  induction l generalizing afterReturn with
  | nil => rfl
  | cons a l ih => exact ih

theorem returned_eq (some_ : l ≠ []) :
    returned cr afterReturn l = decide (l.getLast? = some cr) := by
  induction l generalizing afterReturn with
  | nil => exact absurd rfl some_
  | cons a l ih =>
    rw [returned]
    by_cases more : l = []
    · rw [more, List.getLast?_singleton, returned, decide_eq_decide, Option.some.injEq]
    rw [ih more]
    obtain ⟨b, rest, rfl⟩ := exists_cons_of_ne_nil more
    rw [List.getLast?_cons_cons]

theorem splitLines_true : splitLines cr lf true l = splitLines cr lf false (dropFeed lf l) := by
  cases l with
  | nil => rfl
  | cons a l =>
    have behind : ∀ again : Bool, a ≠ lf → ¬(a = lf ∧ again = true) :=
      fun again other both => other both.1
    by_cases feed : a = lf
    · rw [splitLines_cons, if_pos ⟨feed, rfl⟩, dropFeed, if_pos feed]
    rw [dropFeed, if_neg feed, splitLines_cons, splitLines_cons, if_neg (behind true feed),
      if_neg (behind false feed)]

theorem dropFeed_eq (other : l.head? ≠ some lf) : dropFeed lf l = l := by
  cases l with
  | nil => rfl
  | cons a l => rw [dropFeed, if_neg fun feed => other (congrArg some feed)]

/-- What ends a line is not in it. -/
def Unended (cr lf : α) (line : List α) : Prop := ∀ a ∈ line, a ≠ cr ∧ a ≠ lf

omit [DecidableEq α] in
theorem Unended.append (unended : Unended cr lf line) (unended' : Unended cr lf more) :
    Unended cr lf (line ++ more) := by
  intro a mem
  rcases mem_append.mp mem with mem | mem
  · exact unended a mem
  · exact unended' a mem

theorem unended_of_mem_splitLines :
    ∀ line ∈ splitLines cr lf afterReturn l, Unended cr lf line := by
  have empty : Unended cr lf [] := nofun
  induction l generalizing afterReturn with
  | nil =>
    intro line mem
    rw [mem_singleton.mp mem]
    exact empty
  | cons a l ih =>
    rw [splitLines]
    split_ifs with feed return_ feed'
    · exact ih
    · exact forall_mem_cons.mpr ⟨empty, ih⟩
    · exact forall_mem_cons.mpr ⟨empty, ih⟩
    have single : Unended cr lf [a] := by
      intro b mem
      rw [mem_singleton.mp mem]
      exact ⟨return_, feed'⟩
    have some_ : splitLines cr lf false l ≠ [] := splitLines_ne_nil
    have proper : ∀ line ∈ splitLines cr lf false l, Unended cr lf line := ih
    obtain ⟨first, lines, split⟩ := exists_cons_of_ne_nil some_
    rw [split] at proper ⊢
    obtain ⟨here, later⟩ := forall_mem_cons.mp proper
    exact forall_mem_cons.mpr ⟨single.append here, later⟩

theorem splitLines_continue (unended : Unended cr lf line) :
    splitLines cr lf false (line ++ l) = continueWith line (splitLines cr lf false l) := by
  induction line with
  | nil => exact (continueWith_nil splitLines_ne_nil).symm
  | cons a line ih =>
    obtain ⟨⟨return_, feed⟩, later⟩ := forall_mem_cons.mp unended
    rw [cons_append, splitLines, if_neg fun both => feed both.1, if_neg return_, if_neg feed,
      ih later]
    exact (continueWith_append [a] line _).symm

theorem splitLines_unended (unended : Unended cr lf line) :
    splitLines cr lf false line = [line] := by
  have whole := @splitLines_continue _ _ _ _ [] _ unended
  rw [append_nil] at whole
  rw [whole]
  exact congrArg (· :: []) (append_nil line)

theorem splitLines_append (differ : cr ≠ lf) {last : List α}
    (split : splitLines cr lf afterReturn l = lines ++ [last]) (more : List α) :
    splitLines cr lf afterReturn (l ++ more) =
      lines ++ continueWith last (splitLines cr lf (returned cr afterReturn l) more) := by
  induction l generalizing afterReturn lines last with
  | nil =>
    obtain ⟨rfl, rfl⟩ : lines = [] ∧ last = [] := by
      cases lines with
      | nil => exact ⟨rfl, (head_eq_of_cons_eq split).symm⟩
      | cons => exact absurd (tail_eq_of_cons_eq split).symm (by simp)
    exact (continueWith_nil splitLines_ne_nil).symm
  | cons a l ih =>
    have ended : ∀ again : Bool, [] :: splitLines cr lf again l = lines ++ [last] →
        [] :: splitLines cr lf again (l ++ more) =
          lines ++ continueWith last (splitLines cr lf (returned cr again l) more) := by
      intro again eq
      cases lines with
      | nil => exact absurd (tail_eq_of_cons_eq eq) splitLines_ne_nil
      | cons =>
        obtain ⟨rfl, rest⟩ := List.cons.inj eq
        rw [ih rest, cons_append]
    rw [splitLines_cons] at split
    rw [cons_append, splitLines_cons, returned]
    by_cases behind : a = lf ∧ afterReturn = true
    · rw [if_pos behind] at split ⊢
      rw [ih split, behind.1, decide_eq_false differ.symm]
    rw [if_neg behind] at split ⊢
    by_cases return_ : a = cr
    · rw [if_pos return_] at split ⊢
      rw [decide_eq_true return_]
      exact ended true split
    rw [if_neg return_] at split ⊢
    rw [decide_eq_false return_]
    by_cases feed : a = lf
    · rw [if_pos feed] at split ⊢
      exact ended false split
    rw [if_neg feed] at split ⊢
    -- the first line begins with `a`
    have some_ : splitLines cr lf false l ≠ [] := splitLines_ne_nil
    obtain ⟨first, later, found⟩ := exists_cons_of_ne_nil some_
    rw [found] at split
    cases lines with
    | nil =>
      obtain ⟨rfl, rfl⟩ := List.cons.inj split
      rw [ih (show splitLines cr lf false l = [] ++ [first] from found)]
      exact (continueWith_append [a] first _).symm
    | cons line lines =>
      obtain ⟨rfl, rfl⟩ := List.cons.inj split
      rw [ih (show splitLines cr lf false l = (first :: lines) ++ [last] from found)]
      rfl

end IoJs.Library
