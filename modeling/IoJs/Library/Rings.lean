import Mathlib.Data.List.Nodup

/-!
# Doubly linked rings

Every node has at most one predecessor and at most one successor, and the two functions undo each
other (`Mutual`). A `Walk` follows the predecessors from one node to another; a ring is a walk from
a node to itself.
-/

namespace IoJs.Library

open List Option
open Function (update)

variable {Node : Type} {next prev : Node → Option Node} {x a : Node}

/-- `next` and `prev` undo each other. -/
def Mutual (next prev : Node → Option Node) : Prop := ∀ x y, prev x = some y ↔ next y = some x

/-- From `x` the predecessors are `nodes`, one after the other, and then `z`. -/
def Walk (prev : Node → Option Node) : Node → List Node → Node → Prop
  | x, [], z => prev x = some z
  | x, y :: nodes, z => prev x = some y ∧ Walk prev y nodes z

namespace Walk

variable {x y z : Node} {nodes nodes' : List Node} {prev' : Node → Option Node} {v i : Node}

theorem append : Walk prev x (nodes ++ y :: nodes') z ↔
    Walk prev x nodes y ∧ Walk prev y nodes' z := by
  induction nodes generalizing x with
  | nil => exact Iff.rfl
  | cons w nodes ih => rw [cons_append, Walk, Walk, ih, and_assoc]

theorem congr (same : ∀ u ∈ x :: nodes, prev' u = prev u) (walk : Walk prev x nodes z) :
    Walk prev' x nodes z := by
  induction nodes generalizing x with
  | nil => exact (same x mem_cons_self).trans walk
  | cons w nodes ih =>
    exact ⟨(same x mem_cons_self).trans walk.1,
      ih (fun u mem => same u (mem_cons_of_mem _ mem)) walk.2⟩

theorem congr_head (head : prev' y = prev x) (same : ∀ u ∈ nodes, prev' u = prev u)
    (walk : Walk prev x nodes z) : Walk prev' y nodes z := by
  cases nodes with
  | nil => exact head.trans walk
  | cons => exact ⟨head.trans walk.1, walk.2.congr same⟩

section

variable (walk : Walk prev x nodes z)
include walk

theorem mem_of_prev {u : Node} (mem : u ∈ x :: nodes)
    (before : prev u = some v) : v ∈ nodes ∨ v = z := by
  induction nodes generalizing x with
  | nil =>
    rw [mem_singleton.mp mem] at before
    exact .inr (some.inj (before.symm.trans walk))
  | cons w nodes ih =>
    rcases mem_cons.mp mem with rfl | mem
    · exact .inl (some.inj (before.symm.trans walk.1) ▸ mem_cons_self)
    · exact (ih walk.2 mem).imp_left (mem_cons_of_mem _)

theorem exists_last : ∃ u ∈ x :: nodes, prev u = some z := by
  induction nodes generalizing x with
  | nil => exact ⟨x, mem_cons_self, walk⟩
  | cons w nodes ih =>
    obtain ⟨u, mem, before⟩ := ih walk.2
    exact ⟨u, mem_cons_of_mem _ mem, before⟩

theorem exists_prev (mem : v ∈ nodes) : ∃ u ∈ x :: nodes, prev u = some v := by
  obtain ⟨before, after, rfl⟩ := append_of_mem mem
  obtain ⟨u, u_mem, here⟩ := (append.mp walk).1.exists_last
  refine ⟨u, ?_, here⟩
  exact mem_append_left _ u_mem

end

/-! ## Taking a node out -/

theorem unlink {before after : List Node} (walk : Walk prev x (before ++ y :: after) z)
    (nodup : (x :: (before ++ y :: after)).Nodup) (end_ : y ≠ z)
    (others : ∀ {u}, u ≠ y → prev u ≠ some y → prev' u = prev u)
    (joined : ∀ {u}, u ≠ y → prev u = some y → prev' u = prev y) :
    Walk prev' x (before ++ after) z := by
  induction before generalizing x with
  | nil =>
    obtain ⟨here, rest⟩ := walk
    obtain ⟨new, distinct⟩ := nodup_cons.mp nodup
    obtain ⟨once, -⟩ := nodup_cons.mp distinct
    refine rest.congr_head (joined (fun same => new (same ▸ mem_cons_self)) here) ?_
    intro u mem
    refine others (fun same => once (same ▸ mem)) fun before => ?_
    rcases rest.mem_of_prev (mem_cons_of_mem _ mem) before with again | last
    · exact once again
    · exact end_ last
  | cons w before ih =>
    obtain ⟨new, distinct⟩ := nodup_cons.mp nodup
    have other : w ≠ y := by
      rintro rfl
      exact (nodup_cons.mp distinct).1 (mem_append_right _ mem_cons_self)
    have first : x ≠ y := by
      rintro rfl
      exact new (mem_cons_of_mem _ (mem_append_right _ mem_cons_self))
    refine ⟨(others first ?_).trans walk.1, ih walk.2 distinct⟩
    rw [walk.1]
    exact fun same => other (some.inj same)

/-! ## Putting a node in -/

theorem link (walk : Walk prev x nodes y) (new : i ∉ x :: nodes) (end_ : y ∉ nodes)
    (others : ∀ {u}, u ≠ i → prev u ≠ some y → prev' u = prev u)
    (joined : ∀ {u}, prev u = some y → prev' u = some i) (last : prev' i = some y) :
    Walk prev' x (nodes ++ [i]) y := by
  induction nodes generalizing x with
  | nil => exact ⟨joined walk, last⟩
  | cons w nodes ih =>
    rw [mem_cons, not_or] at new end_
    refine ⟨(others (Ne.symm new.1) ?_).trans walk.1, ih walk.2 new.2 end_.2⟩
    rw [walk.1]
    exact fun same => end_.1 (some.inj same).symm

theorem link_of_not_mem (walk : Walk prev x nodes z) (new : i ∉ x :: nodes)
    (away : y ∉ nodes) (end_ : y ≠ z)
    (others : ∀ {u}, u ≠ i → prev u ≠ some y → prev' u = prev u) : Walk prev' x nodes z := by
  refine walk.congr fun u mem => others (fun same => new (same ▸ mem)) fun before => ?_
  rcases walk.mem_of_prev mem before with passed | last
  · exact away passed
  · exact end_ last

end Walk

variable [DecidableEq Node]

section

variable (mutual_ : Mutual next prev)
include mutual_

theorem Mutual.unlink {b : Node} (after : next x = some a)
    (before : prev x = some b) (other : a ≠ x) :
    Mutual (update (update next b (some a)) x none)
      (update (update prev a (some b)) x none) := by
  have before_a : prev a = some x := (mutual_ _ _).mpr after
  have after_b : next b = some x := (mutual_ _ _).mp before
  intro u v
  have here := mutual_ u v
  grind

theorem Mutual.link {i y : Node} (after : next y = some a)
    (alone : next i = none) (alone' : prev i = none) :
    Mutual (update (update next i (some a)) y (some i))
      (update (update prev a (some i)) i (some y)) := by
  have before_a : prev a = some y := (mutual_ _ _).mpr after
  intro u v
  have here := mutual_ u v
  grind

/-- An item that is in no list may be made a list of its own. -/
theorem Mutual.init (loose : next x = none ∨ next x = some x)
    (loose' : prev x = none ∨ prev x = some x) :
    Mutual (update next x (some x)) (update prev x (some x)) := by
  intro u v
  have here := mutual_ u v
  grind

theorem Mutual.dissolve (loose : next x = none ∨ next x = some x)
    (loose' : prev x = none ∨ prev x = some x) :
    Mutual (update next x none) (update prev x none) := by
  intro u v
  have here := mutual_ u v
  grind

end

end IoJs.Library
