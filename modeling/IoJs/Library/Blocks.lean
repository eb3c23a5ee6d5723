import Mathlib.Algebra.Ring.Periodic

/-!
# Blocks of a memory

A memory has a cell at each address, and it is changed a block at a time. The cells of a block come
from elsewhere, or they are copied inside of the memory.
-/

namespace IoJs.Library.Blocks

open List Option

variable {Cell : Type*} {i n : ℕ}

/-- The cells from an address on -/
def load (memory : ℕ → Cell) (start count : ℕ) : List Cell :=
  (List.range count).map fun i => memory (start + i)

/-- The memory in which a block has been written -/
def store (memory : ℕ → Cell) (start : ℕ) (block : List Cell) : ℕ → Cell := fun address =>
  if start ≤ address then block[address - start]?.getD (memory address) else memory address

/-- What changes a memory -/
inductive Op (Cell : Type*) where
  | store (target : ℕ) (block : List Cell)
  | copy (target source count : ℕ)

namespace Op

def apply (memory : ℕ → Cell) : Op Cell → ℕ → Cell
  | store target block => Blocks.store memory target block
  | copy target source count => Blocks.store memory target (load memory source count)

/-- All cells that are read or written are in a range. -/
def Within (first last : ℕ) : Op Cell → Prop
  | store target block => first ≤ target ∧ target + block.length ≤ last
  | copy target source count =>
    (first ≤ target ∧ target + count ≤ last) ∧ first ≤ source ∧ source + count ≤ last

end Op

/-- One operation after the other -/
def run (memory : ℕ → Cell) (ops : List (Op Cell)) : ℕ → Cell := ops.foldl Op.apply memory

variable {memory : ℕ → Cell} {start count address first last : ℕ} {block : List Cell}
  {op : Op Cell} {ops : List (Op Cell)}

/-! ## Blocks -/

@[simp]
theorem length_load (memory : ℕ → Cell) (start count : ℕ) :
    (load memory start count).length = count := by
  rw [load, length_map, length_range]

theorem getElem?_load (lt : i < count) :
    (load memory start count)[i]? = some (memory (start + i)) := by
  rw [load, List.getElem?_map, List.getElem?_range lt, map_some]

theorem load_add (memory : ℕ → Cell) (start m n : ℕ) :
    load memory start (m + n) = load memory start m ++ load memory (start + m) n := by
  simp only [load, range_add, map_append, List.map_map, Function.comp_def, Nat.add_assoc]

theorem load_shift (memory : ℕ → Cell) (origin start count : ℕ) :
    load (fun i => memory (origin + i)) start count = load memory (origin + start) count := by
  simp only [load, Nat.add_assoc]

theorem load_getD (cells : List Cell) (default : Cell) :
    load (fun i => cells.getD i default) 0 cells.length = cells := by
  apply ext_getElem (length_load _ _ _)
  intro i lt lt'
  rw [← Option.some.injEq, ← List.getElem?_eq_getElem lt, getElem?_load lt', Nat.zero_add,
    getD_eq_getElem?_getD, List.getElem?_eq_getElem lt', getD_some]

theorem drop_load (memory : ℕ → Cell) (start count n : ℕ) :
    (load memory start count).drop n = load memory (start + n) (count - n) := by
  apply ext_getElem?
  intro i
  rw [List.getElem?_drop]
  by_cases lt : n + i < count
  · rw [getElem?_load lt, getElem?_load (by omega), Nat.add_assoc]
  rw [List.getElem?_eq_none (by rw [length_load]; omega),
    List.getElem?_eq_none (by rw [length_load]; omega)]

theorem take_load (le : n ≤ count) : (load memory start count).take n = load memory start n := by
  apply ext_getElem?
  intro i
  by_cases lt : i < n
  · rw [List.getElem?_take_of_lt lt, getElem?_load (Nat.lt_of_lt_of_le lt le), getElem?_load lt]
  rw [List.getElem?_eq_none (by rw [length_take]; omega),
    List.getElem?_eq_none (by rw [length_load]; omega)]

theorem prefix_drop_load {cells : List Cell} (some_ : cells ≠ []) :
    cells <+: (load memory start count).drop n ↔
      n + cells.length ≤ count ∧ load memory (start + n) cells.length = cells := by
  have pos : 0 < cells.length := length_pos_iff.mpr some_
  rw [drop_load, prefix_iff_eq_take]
  by_cases fits : cells.length ≤ count - n
  · rw [take_load fits, eq_comm]
    exact (and_iff_right (by omega)).symm
  constructor
  · intro whole
    have length := congrArg List.length whole
    rw [length_take, length_load] at length
    omega
  rintro ⟨within, -⟩
  omega

theorem store_inside {cell : Cell} (here : block[i]? = some cell) :
    store memory start block (start + i) = cell := by
  rw [store, if_pos (Nat.le_add_right start i), Nat.add_sub_cancel_left, here, getD_some]

theorem store_outside (outside : address < start ∨ start + block.length ≤ address) :
    store memory start block address = memory address := by
  rw [store]
  split_ifs with le
  · rw [List.getElem?_eq_none (by omega), getD_none]
  · rfl

@[simp]
theorem store_nil (memory : ℕ → Cell) (start : ℕ) : store memory start [] = memory := by
  funext address
  rw [store, List.getElem?_nil, getD_none, ite_self]

theorem store_append (memory : ℕ → Cell) (start : ℕ) (first second : List Cell) :
    store (store memory start first) (start + first.length) second =
      store memory start (first ++ second) := by
  funext address
  simp only [store, List.getElem?_append]
  by_cases before : address < start
  · rw [if_neg (by omega), if_neg (by omega), if_neg (by omega)]
  obtain ⟨i, rfl⟩ := Nat.exists_eq_add_of_le (Nat.le_of_not_lt before)
  rw [if_pos (Nat.le_add_right start i), if_pos (Nat.le_add_right start i), Nat.add_sub_cancel_left]
  by_cases inside : i < first.length
  · rw [if_neg (by omega), if_pos inside]
  rw [if_pos (by omega), if_neg inside, Nat.add_sub_add_left,
    List.getElem?_eq_none (Nat.le_of_not_lt inside), getD_none]

/-! ## Ranges -/

@[simp]
theorem run_nil : run memory [] = memory := rfl

@[simp]
theorem run_cons : run memory (op :: ops) = run (op.apply memory) ops := rfl

theorem Op.apply_of_within (within : op.Within first last)
    (outside : address < first ∨ last ≤ address) : op.apply memory address = memory address := by
  cases op with
  | store =>
    obtain ⟨above, below⟩ := within
    exact store_outside (by omega)
  | copy =>
    obtain ⟨⟨above, below⟩, -⟩ := within
    refine store_outside ?_
    rw [length_load]
    omega

/-- Operations within a range leave the memory outside of it. -/
theorem run_of_within (within : ∀ op ∈ ops, op.Within first last)
    (outside : address < first ∨ last ≤ address) : run memory ops address = memory address := by
  induction ops generalizing memory with
  | nil => rfl
  | cons op ops ih =>
    obtain ⟨here, later⟩ := forall_mem_cons.mp within
    rw [run_cons, ih later, Op.apply_of_within here outside]

/-! ## Patterns -/

/-- Some cells from an address on are those of a pattern. -/
def Filled (pattern : ℕ → Cell) (memory : ℕ → Cell) (start count : ℕ) : Prop :=
  ∀ i < count, memory (start + i) = pattern i

section Patterns

variable {pattern : ℕ → Cell} {there : ℕ}

theorem filled_store (same : ∀ i < block.length, block[i]? = some (pattern i)) :
    Filled pattern (store memory start block) start block.length := by
  intro i lt
  exact store_inside (same i lt)

theorem Filled.copy (filled : Filled pattern memory start there)
    (periodic : Function.Periodic pattern there) (le : count ≤ there) :
    Filled pattern ((Op.copy (start + there) start count).apply memory) start (there + count) := by
  intro i lt
  rw [Op.apply]
  by_cases old : i < there
  · rw [store_outside (.inl (by omega)), filled i old]
  obtain ⟨j, rfl⟩ := Nat.exists_eq_add_of_le (Nat.le_of_not_lt old)
  have copied : j < count := by omega
  rw [← Nat.add_assoc, store_inside (getElem?_load copied), filled j (by omega), Nat.add_comm there,
    periodic j]

end Patterns

end IoJs.Library.Blocks
