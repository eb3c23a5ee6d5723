import Mathlib.Tactic.Common

/-!
# Programs that read

A program looks at one cell of a memory after the other, and what it looks at next may depend on
what it has found. It is a tree: a node is a read, and there is a branch for each content of the
cell. Each branch is finite, so that a program which is such a tree ends, whatever the memory.
-/

namespace IoJs.Library

universe u

variable {Cell : Type*} {α β : Type u}

/-- A program that reads cells and has a result -/
inductive Reading (Cell α : Type*) where
  | done (result : α)
  | read (index : ℕ) (next : Cell → Reading Cell α)

namespace Reading

/-- One program after the other -/
def bind : Reading Cell α → (α → Reading Cell β) → Reading Cell β
  | done a, f => f a
  | read index next, f => read index fun cell => (next cell).bind f

instance : Monad (Reading Cell) where
  pure := done
  bind := bind

/-- The read of one cell -/
def cell (index : ℕ) : Reading Cell Cell := read index done

/-- The result in a memory -/
def run (memory : ℕ → Cell) : Reading Cell α → α
  | done a => a
  | read index next => run memory (next (memory index))

/-- The indices that are looked at in a memory -/
def reads (memory : ℕ → Cell) : Reading Cell α → List ℕ
  | done _ => []
  | read index next => index :: reads memory (next (memory index))

/-- The number of the reads -/
def count (memory : ℕ → Cell) (program : Reading Cell α) : ℕ := (reads memory program).length

/-- Nothing is looked at from the bound on. -/
def Below (memory : ℕ → Cell) (bound : ℕ) (program : Reading Cell α) : Prop :=
  ∀ index ∈ reads memory program, index < bound

variable {memory memory' : ℕ → Cell} {bound index : ℕ} {program : Reading Cell α}
  {f : α → Reading Cell β}

/-! ## Results -/

@[simp]
theorem run_pure (a : α) : run memory (pure a : Reading Cell α) = a := rfl

@[simp]
theorem run_cell : run memory (cell index) = memory index := rfl

@[simp]
theorem run_bind (program : Reading Cell α) (f : α → Reading Cell β) :
    run memory (program >>= f) = run memory (f (run memory program)) := by
  induction program with
  | done a => rfl
  | read index next ih => exact ih (memory index)

/-! ## Reads -/

@[simp]
theorem reads_pure (a : α) : reads memory (pure a : Reading Cell α) = [] := rfl

@[simp]
theorem reads_cell : reads memory (cell index) = [index] := rfl

@[simp]
theorem reads_bind (program : Reading Cell α) (f : α → Reading Cell β) :
    reads memory (program >>= f) = reads memory program ++
      reads memory (f (run memory program)) := by
  induction program with
  | done a => rfl
  | read index next ih => exact congrArg (index :: ·) (ih (memory index))

@[simp]
theorem count_pure (a : α) : count memory (pure a : Reading Cell α) = 0 := rfl

@[simp]
theorem count_cell : count memory (cell index) = 1 := rfl

@[simp]
theorem count_bind (program : Reading Cell α) (f : α → Reading Cell β) :
    count memory (program >>= f) = count memory program +
      count memory (f (run memory program)) := by
  rw [count, reads_bind, List.length_append, count, count]

/-! ## Bounds -/

@[simp]
theorem below_pure (a : α) : Below memory bound (pure a : Reading Cell α) :=
  fun _ read => absurd read List.not_mem_nil

@[simp]
theorem below_cell : Below memory bound (cell index) ↔ index < bound := by simp [Below]

@[simp]
theorem below_bind : Below memory bound (program >>= f) ↔
    Below memory bound program ∧ Below memory bound (f (run memory program)) := by
  simp only [Below, reads_bind, List.forall_mem_append]

end Reading

end IoJs.Library
