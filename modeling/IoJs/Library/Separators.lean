import Mathlib.Data.List.Basic

/-!
# Separators

A separator of two different elements cuts a list into parts. Parts that do not contain it can be
joined, and split again (`splitPair_joinPair`); and where none of them is empty, the first double
separator is the one behind the last part (`indexOf_joinPair`). For a separator of one element
`List.splitOn` has the parts: they do not contain it, and have nothing that was not in the list.
-/

namespace IoJs.Library

open List Option

section Definitions

variable {α : Type} [DecidableEq α]

/-- Where a list first occurs in another -/
def indexOf (part : List α) : List α → Option Nat
  | [] => if part = [] then some 0 else none
  | a :: l => if part <+: a :: l then some 0 else (indexOf part l).map (· + 1)

/-- The parts, cut at each `a` that is followed by `b` -/
def splitPair (a b : α) : List α → List (List α)
  | x :: y :: rest =>
    if x = a ∧ y = b then [] :: splitPair a b rest
    else
      match splitPair a b (y :: rest) with
      | [] => [[x]]
      | part :: parts => (x :: part) :: parts
  | l => [l]

end Definitions

variable {α : Type} {x : α} {i : Nat}

/-- Parts with separators between them -/
def joinPair (a b : α) : List (List α) → List α
  | [] => []
  | [part] => part
  | part :: parts => part ++ a :: b :: joinPair a b parts

/-- No `a` is followed by `b`. -/
def Unbroken (a b : α) : List α → Prop
  | x :: y :: rest => ¬(x = a ∧ y = b) ∧ Unbroken a b (y :: rest)
  | _ => True

variable {a b : α} {part l more : List α} {parts : List (List α)}

theorem joinPair_cons (part : List α) (filled : parts ≠ []) :
    joinPair a b (part :: parts) = part ++ a :: b :: joinPair a b parts := by
  cases parts with
  | nil => exact absurd rfl filled
  | cons => rfl

theorem exists_joinPair (part : List α) (parts : List (List α)) (more : List α) :
    ∃ rest, joinPair a b (part :: parts) ++ a :: more = part ++ a :: rest := by
  by_cases filled : parts = []
  · subst filled
    exact ⟨more, rfl⟩
  · exact ⟨b :: joinPair a b parts ++ a :: more, by rw [joinPair_cons part filled]; simp⟩

theorem Unbroken.tail (unbroken : Unbroken a b (x :: l)) : Unbroken a b l := by
  cases l with
  | nil => trivial
  | cons y l => exact unbroken.2

instance decidableUnbroken [DecidableEq α] (a b : α) : (l : List α) → Decidable (Unbroken a b l)
  | [] => isTrue trivial
  | [_] => isTrue trivial
  | x :: y :: rest =>
    have := decidableUnbroken a b (y :: rest)
    inferInstanceAs (Decidable (¬(x = a ∧ y = b) ∧ Unbroken a b (y :: rest)))

theorem Unbroken.cons (unbroken : Unbroken a b l) (next : x = a → l.head? ≠ some b) :
    Unbroken a b (x :: l) := by
  cases l with
  | nil => trivial
  | cons y l => exact ⟨fun both => next both.1 (congrArg some both.2), unbroken⟩

theorem Unbroken.not_prefix (different : a ≠ b) (unbroken : Unbroken a b (x :: l)) :
    ¬[a, b] <+: x :: (l ++ a :: more) := by
  rintro ⟨rest, eq⟩
  cases l with
  | nil =>
    obtain ⟨-, eq⟩ := List.cons.inj eq
    exact different (List.cons.inj eq).1.symm
  | cons y l =>
    obtain ⟨first, eq⟩ := List.cons.inj eq
    exact unbroken.1 ⟨first.symm, (List.cons.inj eq).1.symm⟩

variable [DecidableEq α]

theorem indexOf_le (found : indexOf part l = some i) : i + part.length ≤ l.length := by
  induction l generalizing i with
  | nil =>
    rw [indexOf] at found
    split_ifs at found with empty
    cases found
    rw [empty]
    exact Nat.le_refl 0
  | cons x l ih =>
    rw [indexOf] at found
    split_ifs at found with here
    · cases found
      rw [Nat.zero_add]
      exact here.length_le
    obtain ⟨j, later, rfl⟩ := map_eq_some_iff.mp found
    have le := ih later
    rw [length_cons]
    omega

theorem indexOf_append (found : indexOf part l = some i) (more : List α) :
    indexOf part (l ++ more) = some i := by
  induction l generalizing i with
  | nil =>
    rw [indexOf] at found
    split_ifs at found with empty
    cases found
    subst empty
    cases more with
    | nil => rfl
    | cons => rw [nil_append, indexOf, if_pos nil_prefix]
  | cons x l ih =>
    rw [indexOf] at found
    rw [cons_append, indexOf]
    split_ifs at found with here
    · cases found
      have there : part <+: x :: (l ++ more) := here.trans (prefix_append (x :: l) more)
      rw [if_pos there]
    obtain ⟨j, later, rfl⟩ := map_eq_some_iff.mp found
    have long := indexOf_le later
    have not : ¬part <+: x :: (l ++ more) := fun there =>
      here (prefix_of_prefix_length_le there (prefix_append (x :: l) more)
        (by rw [length_cons]; omega))
    rw [if_neg not, ih later]
    rfl

theorem splitPair_of_unbroken (unbroken : Unbroken a b part) : splitPair a b part = [part] := by
  induction part with
  | nil => rfl
  | cons x part ih =>
    cases part with
    | nil => rfl
    | cons => rw [splitPair, if_neg unbroken.1, ih unbroken.2]

section

variable (different : a ≠ b)
include different

theorem splitPair_append (unbroken : Unbroken a b part) :
    splitPair a b (part ++ a :: b :: more) = part :: splitPair a b more := by
  induction part with
  | nil => rw [nil_append, splitPair, if_pos ⟨rfl, rfl⟩]
  | cons x part ih =>
    have ih := ih unbroken.tail
    cases part with
    | nil =>
      rw [nil_append] at ih
      rw [singleton_append, splitPair, if_neg (fun both => different both.2), ih]
    | cons =>
      rw [cons_append] at ih
      rw [cons_append, cons_append, splitPair, if_neg unbroken.1, ih]

theorem splitPair_joinPair (filled : parts ≠ [])
    (unbroken : ∀ part ∈ parts, Unbroken a b part) :
    splitPair a b (joinPair a b parts) = parts := by
  induction parts with
  | nil => exact absurd rfl filled
  | cons part parts ih =>
    obtain ⟨here, unbroken⟩ := forall_mem_cons.mp unbroken
    cases parts with
    | nil => exact splitPair_of_unbroken here
    | cons next parts =>
      rw [joinPair_cons part (cons_ne_nil next parts), splitPair_append different here,
        ih (cons_ne_nil next parts) unbroken]

theorem indexOf_unbroken (unbroken : Unbroken a b part) : indexOf [a, b, a, b] (part ++ a :: more) =
    (indexOf [a, b, a, b] (a :: more)).map (· + part.length) := by
  induction part with
  | nil => simp
  | cons x part ih =>
    have not : ¬[a, b, a, b] <+: x :: (part ++ a :: more) := fun there =>
      unbroken.not_prefix different ((prefix_append [a, b] [a, b]).trans there)
    rw [cons_append, indexOf, if_neg not, ih unbroken.tail, Option.map_map]
    rfl

theorem indexOf_joinPair (filled : parts ≠ [])
    (proper : ∀ part ∈ parts, part ≠ [] ∧ Unbroken a b part) :
    indexOf [a, b, a, b] (joinPair a b parts ++ a :: b :: a :: b :: more) =
      some (joinPair a b parts).length := by
  induction parts with
  | nil => exact absurd rfl filled
  | cons part parts ih =>
    obtain ⟨⟨-, here⟩, proper⟩ := forall_mem_cons.mp proper
    cases parts with
    | nil =>
      have first : indexOf [a, b, a, b] (a :: b :: a :: b :: more) = some 0 := by
        have here : [a, b, a, b] <+: a :: b :: a :: b :: more := prefix_append [a, b, a, b] more
        rw [indexOf, if_pos here]
      rw [joinPair, indexOf_unbroken different here, first, map_some, Nat.zero_add]
    | cons next parts =>
      have later := ih (cons_ne_nil next parts) proper
      obtain ⟨⟨some_, unbroken⟩, -⟩ := forall_mem_cons.mp proper
      obtain ⟨x, next', rfl⟩ := exists_cons_of_ne_nil some_
      -- two separators do not follow each other
      have not : ¬[a, b, a, b] <+:
          a :: b :: (joinPair a b ((x :: next') :: parts) ++ a :: b :: a :: b :: more) := by
        obtain ⟨rest, eq⟩ := exists_joinPair (a := a) (b := b) (x :: next') parts
          (b :: a :: b :: more)
        rw [eq]
        intro there
        rw [cons_prefix_cons, cons_prefix_cons] at there
        exact unbroken.not_prefix different there.2.2
      have not' : ¬[a, b, a, b] <+:
          b :: (joinPair a b ((x :: next') :: parts) ++ a :: b :: a :: b :: more) := fun there =>
        different (cons_prefix_cons.mp there).1
      rw [joinPair_cons part (cons_ne_nil _ parts), append_assoc, cons_append,
        cons_append, indexOf_unbroken different here, indexOf, if_neg not, indexOf,
        if_neg not', later]
      simp only [map_some, length_append, length_cons, Option.some.injEq]
      omega

end

/-! ## One element -/

theorem notMem_of_mem_splitOn (mem : part ∈ l.splitOn a) : a ∉ part := by
  induction l generalizing part with
  | nil =>
    rw [mem_singleton.mp mem]
    exact not_mem_nil
  | cons x l ih =>
    obtain ⟨first, rest, split⟩ := exists_cons_of_ne_nil (splitOn_ne_nil a l)
    rw [split] at ih
    rw [splitOn_cons_eq_if_modifyHead, split] at mem
    split_ifs at mem with same
    · rcases mem_cons.mp mem with rfl | later
      · exact not_mem_nil
      · exact ih later
    rcases mem_cons.mp mem with rfl | later
    · rw [mem_cons, not_or]
      exact ⟨fun here => same (by rw [here]; exact beq_self_eq_true x), ih mem_cons_self⟩
    · exact ih (mem_cons_of_mem _ later)

end IoJs.Library
