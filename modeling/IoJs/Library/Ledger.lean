import Mathlib.Data.List.Perm.Subperm

/-!
# The ledger of a delivery queue

A component takes items in and passes them on, holding some of them back in
between. Its ledger is the sequence of items taken in, the sequence of items
passed on, and the sequence of items still waiting.
-/

namespace IoJs.Library

open List

variable {α : Type*}

/-- What was taken in, what was passed on, and what waits. -/
@[ext] structure Ledger (α : Type*) where
  accepted : List α
  passed : List α
  waiting : List α

namespace Ledger

/-- The moves of a delivery queue. -/
inductive Move (α : Type*) where
  | rest
  | enqueue (item : α)
  | direct (item : α)
  | drop (item : α)
  | pass (count : Nat)

/-- The ledger after a move. -/
def after (L : Ledger α) : Move α → Ledger α
  | .rest => L
  | .enqueue item => ⟨L.accepted ++ [item], L.passed, L.waiting ++ [item]⟩
  | .direct item => ⟨L.accepted ++ [item], L.passed ++ [item], L.waiting⟩
  | .drop item => ⟨L.accepted ++ [item], L.passed, L.waiting⟩
  | .pass count => ⟨L.accepted, L.passed ++ L.waiting.take count, L.waiting.drop count⟩

/-- The item that a move takes in. -/
def Move.item? : Move α → Option α
  | .enqueue item => some item
  | .direct item => some item
  | .drop item => some item
  | _ => none

/-- An item passed on directly leaves none waiting behind. -/
def Move.Orderly (L : Ledger α) : Move α → Prop
  | .direct _ => L.waiting = []
  | _ => True

/-- No item is dropped. -/
def Move.Lossless : Move α → Prop
  | .drop _ => False
  | _ => True

variable {L : Ledger α} {item : α}

theorem waiting_of_pass_one {L' : Ledger α} (passes : L' = L.after (.pass 1))
    (passed : L'.passed = L.passed ++ [item]) : L.waiting = item :: L'.waiting := by
  rw [passes] at passed ⊢
  have first : L.waiting.take 1 = [item] := append_cancel_left passed
  have parts := take_append_drop 1 L.waiting
  rw [first] at parts
  exact parts.symm

/-! ## Nothing out of nothing, nothing twice -/

/-- What was passed on or waits was taken in, as often. -/
def Accounted (L : Ledger α) : Prop := (L.passed ++ L.waiting).Subperm L.accepted

theorem Accounted.after (accounted : L.Accounted) (move : Move α) : (L.after move).Accounted := by
  have one : ∀ item : α, ((L.passed ++ L.waiting) ++ [item]).Subperm (L.accepted ++ [item]) :=
    fun item => accounted.append (List.Subperm.refl _)
  cases move with
  | rest => exact accounted
  | enqueue item =>
    have same : L.passed ++ (L.waiting ++ [item]) = (L.passed ++ L.waiting) ++ [item] :=
      (append_assoc _ _ _).symm
    simpa only [Accounted, Ledger.after, same] using one item
  | direct item =>
    have moved : ((L.passed ++ [item]) ++ L.waiting).Perm ((L.passed ++ L.waiting) ++ [item]) := by
      simpa only [append_assoc] using perm_append_comm.append_left L.passed
    exact moved.subperm.trans (one item)
  | drop item => exact accounted.trans (sublist_append_left _ _).subperm
  | pass =>
    simpa only [Accounted, Ledger.after, append_assoc, take_append_drop] using accounted

theorem Accounted.nodup (accounted : L.Accounted) (distinct : L.accepted.Nodup) :
    (L.passed ++ L.waiting).Nodup := by
  obtain ⟨rearranged, perm, sublist⟩ := accounted
  exact perm.nodup_iff.mp (sublist.nodup distinct)

theorem Accounted.mem (accounted : L.Accounted)
    (member : item ∈ L.passed ++ L.waiting) : item ∈ L.accepted :=
  accounted.subset member

/-! ## Nothing lost -/

/-- What was taken in was passed on or waits. -/
def Complete (L : Ledger α) : Prop := ∀ item ∈ L.accepted, item ∈ L.passed ∨ item ∈ L.waiting

variable {move : Move α}

theorem Complete.after (complete : L.Complete)
    (lossless : move.Lossless) : (L.after move).Complete := by
  intro item member
  cases move with
  | rest => exact complete item member
  | enqueue new =>
    rcases mem_append.mp member with old | isNew
    · exact (complete item old).imp_right (mem_append_left _)
    · exact .inr (mem_append_right _ isNew)
  | direct new =>
    rcases mem_append.mp member with old | isNew
    · exact (complete item old).imp_left (mem_append_left _)
    · exact .inl (mem_append_right _ isNew)
  | drop new => exact lossless.elim
  | pass count =>
    rcases complete item member with passed | waits
    · exact .inl (mem_append_left _ passed)
    rw [← take_append_drop count L.waiting] at waits
    exact (mem_append.mp waits).imp_left (mem_append_right _)

/-! ## In order -/

/-- What was passed on and then what waits is in the order of `r`. -/
def Sorted (r : α → α → Prop) (L : Ledger α) : Prop := (L.passed ++ L.waiting).Pairwise r

theorem Sorted.after {r : α → α → Prop} (sorted : L.Sorted r) (orderly : move.Orderly L)
    (later : ∀ item ∈ move.item?, ∀ old ∈ L.passed ++ L.waiting, r old item) :
    (L.after move).Sorted r := by
  have snoc : ∀ item : α, (∀ old ∈ L.passed ++ L.waiting, r old item) →
      ((L.passed ++ L.waiting) ++ [item]).Pairwise r := by
    intro item above
    refine pairwise_append.mpr ⟨sorted, pairwise_singleton _ _, ?_⟩
    intro old member new isItem
    rw [mem_singleton.mp isItem]
    exact above old member
  cases move with
  | rest => exact sorted
  | enqueue item =>
    have ordered := snoc item (later item rfl)
    rwa [append_assoc] at ordered
  | direct item =>
    have ordered := snoc item (later item rfl)
    have empty : L.waiting = [] := orderly
    simpa only [Sorted, Ledger.after, empty, append_nil] using ordered
  | drop item => exact sorted
  | pass => simpa only [Sorted, Ledger.after, append_assoc, take_append_drop] using sorted

/-! ## First in, first out -/

/-- What was passed on and then what waits is what was taken in. -/
def Fifo (L : Ledger α) : Prop := L.passed ++ L.waiting = L.accepted

theorem Fifo.after (fifo : L.Fifo) (orderly : move.Orderly L)
    (lossless : move.Lossless) : (L.after move).Fifo := by
  have same : L.passed ++ L.waiting = L.accepted := fifo
  cases move with
  | rest => exact fifo
  | enqueue item => simp only [Fifo, Ledger.after, ← append_assoc, same]
  | direct item =>
    have empty : L.waiting = [] := orderly
    rw [empty, append_nil] at same
    simp only [Fifo, Ledger.after, empty, append_nil, same]
  | drop item => exact lossless.elim
  | pass => simp only [Fifo, Ledger.after, append_assoc, take_append_drop, same]

end Ledger

end IoJs.Library
