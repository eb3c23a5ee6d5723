import Mathlib.Data.List.Nodup

/-!
# Chains of cells

Cells lie in a heap, and each holds the address of the next. A chain is the list of addresses
from one address to another; a chain from an address to itself is a ring, which can be turned.
-/

namespace IoJs.Library

open Option

variable {α : Type}

/-- Cells at addresses; there is none where nothing is allocated. -/
abbrev Heap (α : Type) := Nat → Option α

/-- The cells from `start` to `stop`. -/
def Chain (next : α → Nat) (heap : Heap α) : Nat → List Nat → Nat → Prop
  | start, [], stop => start = stop
  | start, a :: addresses, stop =>
    start = a ∧ ∃ cell, heap a = some cell ∧ Chain next heap (next cell) addresses stop

section Chain

variable {next : α → Nat} {heap heap' : Heap α} {start stop : Nat} {addresses addresses' : List Nat}
variable {a : Nat} {cell : α}

theorem chain_append : Chain next heap start (addresses ++ addresses') stop ↔
    ∃ mid, Chain next heap start addresses mid ∧ Chain next heap mid addresses' stop := by
  induction addresses generalizing start with
  | nil =>
    constructor
    · intro chain
      exact ⟨start, rfl, chain⟩
    rintro ⟨mid, rfl, chain⟩
    exact chain
  | cons a addresses ih =>
    constructor
    · rintro ⟨here, cell, there, rest⟩
      obtain ⟨mid, first, second⟩ := ih.mp rest
      exact ⟨mid, ⟨here, cell, there, first⟩, second⟩
    rintro ⟨mid, ⟨here, cell, there, first⟩, second⟩
    exact ⟨here, cell, there, ih.mpr ⟨mid, first, second⟩⟩

section

variable (chain : Chain next heap start addresses stop)
include chain

theorem Chain.congr (same : ∀ a ∈ addresses, (heap' a).map next = (heap a).map next) :
    Chain next heap' start addresses stop := by
  induction addresses generalizing start with
  | nil => exact chain
  | cons a addresses ih =>
    obtain ⟨here, cell, there, rest⟩ := chain
    have first := same a List.mem_cons_self
    rw [there, map_some, map_eq_some_iff] at first
    obtain ⟨cell', there', eq⟩ := first
    refine ⟨here, cell', there', ?_⟩
    rw [eq]
    exact ih rest fun b member => same b (List.mem_cons_of_mem _ member)

theorem Chain.update_of_notMem {cell : Option α} (outside : a ∉ addresses) :
    Chain next (Function.update heap a cell) start addresses stop := by
  apply chain.congr
  intro b member
  rw [Function.update_of_ne]
  rintro rfl
  exact outside member

theorem Chain.update {cell' : α} (there : heap a = some cell) (same : next cell' = next cell) :
    Chain next (Function.update heap a (some cell')) start addresses stop := by
  apply chain.congr
  intro b _
  by_cases here : b = a
  · rw [here, Function.update_self, there, map_some, map_some, same]
  · rw [Function.update_of_ne here]

end

theorem Chain.turn (chain : Chain next heap start (a :: addresses) a) (there : heap a = some cell) :
    Chain next heap (next cell) (addresses ++ [a]) (next cell) := by
  obtain ⟨-, cell', there', rest⟩ := chain
  obtain rfl := some.inj (there.symm.trans there')
  exact chain_append.mpr ⟨a, rest, rfl, cell, there, rfl⟩

theorem Chain.start_eq (chain : Chain next heap start addresses stop) :
    start = addresses.headD stop := by
  cases addresses with
  | nil => exact chain
  | cons => exact chain.1

end Chain

end IoJs.Library
