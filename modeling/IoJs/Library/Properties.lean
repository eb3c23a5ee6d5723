import Mathlib.Data.List.Nodup

/-!
# Own properties

The own properties of an object, in the order in which they have been added. A property is found by
its key (`get`); to set one that is there changes its value and leaves it in its place.
-/

namespace IoJs.Library

open List

/-- The own properties of an object -/
@[ext] structure Properties (Key Value : Type) where
  entries : List (Key × Value)
  nodup : (entries.map Prod.fst).Nodup

namespace Properties

variable {Key Value : Type} {object : Properties Key Value} {k' : Key}

instance [DecidableEq Key] [DecidableEq Value] : DecidableEq (Properties Key Value) :=
  fun first second => decidable_of_iff (first.entries = second.entries) Properties.ext_iff.symm

/-- No properties -/
def empty : Properties Key Value := ⟨[], nodup_nil⟩

/-- How many there are -/
def size (object : Properties Key Value) : Nat := object.entries.length

/-- The keys, in their order -/
def keys (object : Properties Key Value) : List Key := object.entries.map Prod.fst

theorem size_empty : (empty : Properties Key Value).size = 0 := rfl

theorem length_keys (object : Properties Key Value) : object.keys.length = object.size :=
  length_map ..

theorem eq_empty_of_size (none : object.size = 0) : object = empty := by
  refine Properties.ext ?_
  exact length_eq_zero_iff.mp none

variable [DecidableEq Key] {k : Key} {v : Value} {object : Properties Key Value}
  {entries : List (Key × Value)}

/-- A property -/
def get (k : Key) (object : Properties Key Value) : Option Value := object.entries.lookup k

/-- The entries when a property has been set -/
def setEntries (k : Key) (v : Value) : List (Key × Value) → List (Key × Value)
  | [] => [(k, v)]
  | (k', v') :: rest => if k = k' then (k, v) :: rest else (k', v') :: setEntries k v rest

theorem mem_keys_setEntries :
    k' ∈ (setEntries k v entries).map Prod.fst ↔ k' = k ∨ k' ∈ entries.map Prod.fst := by
  induction entries with
  | nil => simp [setEntries]
  | cons entry rest ih =>
    obtain ⟨k'', v''⟩ := entry
    rw [setEntries]
    split_ifs with same
    · subst same
      simp
    rw [map_cons, mem_cons, ih, map_cons, mem_cons]
    exact or_left_comm

theorem nodup_setEntries (k : Key) (v : Value) (nodup : (entries.map Prod.fst).Nodup) :
    ((setEntries k v entries).map Prod.fst).Nodup := by
  induction entries with
  | nil => exact nodup_singleton k
  | cons entry rest ih =>
    obtain ⟨k', v'⟩ := entry
    obtain ⟨new, distinct⟩ := nodup_cons.mp nodup
    rw [setEntries]
    split_ifs with same
    · subst same
      exact nodup
    refine nodup_cons.mpr ⟨?_, ih distinct⟩
    rw [mem_keys_setEntries, not_or]
    exact ⟨fun eq => same eq.symm, new⟩

/-- A property is set. -/
def set (k : Key) (v : Value) (object : Properties Key Value) : Properties Key Value :=
  ⟨setEntries k v object.entries, nodup_setEntries k v object.nodup⟩

/-- A property is deleted. -/
def delete (k : Key) (object : Properties Key Value) : Properties Key Value :=
  ⟨object.entries.filter fun entry => entry.1 ≠ k,
    object.nodup.sublist (filter_sublist.map Prod.fst)⟩

/-! ## Finding them -/

theorem lookup_setEntries (k' : Key) :
    (setEntries k v entries).lookup k' = if k' = k then some v else entries.lookup k' := by
  induction entries with
  | nil =>
    rw [setEntries, lookup_cons, lookup_nil]
    by_cases same : k' = k
    · rw [if_pos same, beq_iff_eq.mpr same]
    · rw [if_neg same, beq_eq_false_iff_ne.mpr same]
  | cons entry rest ih =>
    obtain ⟨k'', v''⟩ := entry
    rw [setEntries]
    by_cases here : k = k''
    · subst here
      rw [if_pos rfl, lookup_cons, lookup_cons]
      by_cases same : k' = k
      · rw [if_pos same, beq_iff_eq.mpr same]
      · rw [if_neg same, beq_eq_false_iff_ne.mpr same]
    rw [if_neg here, lookup_cons, lookup_cons, ih]
    by_cases found : k' = k''
    · have kept : k' ≠ k := fun same => here (same.symm.trans found)
      rw [if_neg kept, if_neg kept]
    · rw [beq_eq_false_iff_ne.mpr found]

theorem get_set (k' : Key) : (object.set k v).get k' = if k' = k then some v else object.get k' :=
  lookup_setEntries k'

theorem get_set_self : (object.set k v).get k = some v := by rw [get_set, if_pos rfl]

theorem get_set_of_ne (other : k' ≠ k) : (object.set k v).get k' = object.get k' := by
  rw [get_set, if_neg other]

theorem lookup_filter (k' : Key) : (entries.filter fun entry => entry.1 ≠ k).lookup k' =
      if k' = k then none else entries.lookup k' := by
  induction entries with
  | nil => simp
  | cons entry rest ih =>
    obtain ⟨k'', v''⟩ := entry
    by_cases gone : k'' = k
    · subst gone
      rw [filter_cons_of_neg (by simp), ih, lookup_cons]
      by_cases same : k' = k''
      · rw [if_pos same, if_pos same]
      · rw [if_neg same, if_neg same, beq_eq_false_iff_ne.mpr same]
    rw [filter_cons_of_pos (by simpa using gone), lookup_cons, lookup_cons, ih]
    by_cases same : k' = k''
    · have kept : k' ≠ k := fun eq => gone (same.symm.trans eq)
      rw [if_neg kept, if_neg kept]
    · rw [beq_eq_false_iff_ne.mpr same]

theorem get_delete (k' : Key) :
    (object.delete k).get k' = if k' = k then none else object.get k' := lookup_filter k'

theorem get_delete_self : (object.delete k).get k = none := by rw [get_delete, if_pos rfl]

theorem get_delete_of_ne (other : k' ≠ k) :
    (object.delete k).get k' = object.get k' := by rw [get_delete, if_neg other]

theorem get_eq_none_iff : object.get k = none ↔ k ∉ object.keys := by
  rw [get, lookup_eq_none_iff, keys, List.mem_map, not_exists]
  constructor
  · rintro absent entry ⟨mem, rfl⟩
    exact absurd (absent entry mem) (by simp)
  intro absent entry mem
  have other : k ≠ entry.1 := fun same => absent entry ⟨mem, same.symm⟩
  simpa using other

theorem mem_keys_iff : k ∈ object.keys ↔ (object.get k).isSome = true := by
  rw [← not_iff_not, ← get_eq_none_iff, Bool.not_eq_true, Option.isSome_eq_false_iff,
    Option.isNone_iff_eq_none]

/-! ## How many there are -/

theorem lookup_append_cons (new : k ∉ entries.map Prod.fst) (rest : List (Key × Value)) :
    (entries ++ (k, v) :: rest).lookup k = some v := by
  induction entries with
  | nil => exact lookup_cons_self
  | cons entry entries ih =>
    obtain ⟨k', v'⟩ := entry
    rw [map_cons, mem_cons, not_or] at new
    have other : (k == k') = false := beq_eq_false_iff_ne.mpr new.1
    rw [cons_append, lookup_cons, other]
    exact ih new.2

theorem setEntries_append (new : k ∉ entries.map Prod.fst) (rest : List (Key × Value)) :
    setEntries k v (entries ++ rest) = entries ++ setEntries k v rest := by
  induction entries with
  | nil => rfl
  | cons entry entries ih =>
    rw [map_cons, mem_cons, not_or] at new
    rw [cons_append, setEntries, if_neg new.1, ih new.2]
    rfl

theorem length_setEntries_of_mem (old : k ∈ entries.map Prod.fst) :
    (setEntries k v entries).length = entries.length := by
  induction entries with
  | nil => cases old
  | cons entry entries ih =>
    rw [setEntries]
    split_ifs with same
    · rfl
    · rw [length_cons, length_cons, ih ((mem_cons.mp old).resolve_left same)]

theorem entries_set_of_new (new : object.get k = none) :
    (object.set k v).entries = object.entries ++ [(k, v)] := by
  have appended := setEntries_append (v := v) (get_eq_none_iff.mp new) []
  rwa [append_nil] at appended

theorem size_set_of_new (new : object.get k = none) : (object.set k v).size = object.size + 1 := by
  rw [size, entries_set_of_new new, length_append]
  rfl

theorem size_set_of_old (old : (object.get k).isSome = true) :
    (object.set k v).size = object.size :=
  length_setEntries_of_mem (mem_keys_iff.mpr old)

theorem filter_of_new (new : k ∉ entries.map Prod.fst) :
    (entries.filter fun entry => entry.1 ≠ k) = entries := by
  refine filter_eq_self.mpr fun entry mem => ?_
  have other : entry.1 ≠ k := fun same => new (List.mem_map.mpr ⟨entry, mem, same⟩)
  exact decide_eq_true other

theorem length_filter_of_mem (nodup : (entries.map Prod.fst).Nodup)
    (old : k ∈ entries.map Prod.fst) :
    (entries.filter fun entry => entry.1 ≠ k).length + 1 = entries.length := by
  induction entries with
  | nil => cases old
  | cons entry rest ih =>
    obtain ⟨new, distinct⟩ := nodup_cons.mp nodup
    by_cases same : entry.1 = k
    · subst same
      rw [filter_cons_of_neg (by simp), filter_of_new new, length_cons]
    rw [filter_cons_of_pos (by simpa using same), length_cons, length_cons,
      ih distinct ((mem_cons.mp old).resolve_left fun eq => same eq.symm)]

theorem size_delete (old : (object.get k).isSome = true) :
    (object.delete k).size + 1 = object.size :=
  length_filter_of_mem object.nodup (mem_keys_iff.mpr old)

end Properties

end IoJs.Library
