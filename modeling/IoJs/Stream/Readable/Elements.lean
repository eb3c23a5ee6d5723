import IoJs.Library.Tape
import IoJs.Stream.Readable.Machine

/-!
# A Readable as a sequence of elements

The elements of a Buffer are its bytes, those of a string its code units; in object mode a
chunk is one element. The chunks in `state.buffer` together are a sequence of elements
(`ReadableState.sequence`), and `fromList` takes the first of them: `fromList_spec` covers
its four ways to do so.
-/

namespace IoJs.Stream

open IoJs.Library List

variable {Obj : Type}

/-- What streams carry: bytes, code units, or whole values in object mode. -/
inductive Element (Obj : Type) where
  | byte (value : UInt8)
  | unit (value : UInt16)
  | value (chunk : Chunk Obj)
  deriving DecidableEq

namespace Chunk

/-- The elements of a chunk. -/
def elements (objectMode : Bool) (chunk : Chunk Obj) : List (Element Obj) :=
  if objectMode then [.value chunk]
  else chunk.bytes.map .byte ++ chunk.units.map .unit

theorem elements_length (chunk : Chunk Obj) : (chunk.elements false).length = chunk.size := by
  cases chunk <;> simp [elements, bytes, units, size, length?]

@[simp] theorem elements_sliceTo (n : Nat) (chunk : Chunk Obj) :
    (chunk.sliceTo n).elements false = (chunk.elements false).take n := by
  cases chunk <;> simp [elements, sliceTo, bytes, units]

@[simp] theorem elements_sliceFrom (n : Nat) (chunk : Chunk Obj) :
    (chunk.sliceFrom n).elements false = (chunk.elements false).drop n := by
  cases chunk <;> simp [elements, sliceFrom, bytes, units]

theorem size_sliceFrom {chunk : Chunk Obj} {n : Nat} (part : n < chunk.size) :
    0 < (chunk.sliceFrom n).size := by
  rw [← elements_length] at part ⊢
  rw [elements_sliceFrom, length_drop]
  omega

/-- `typeof chunk === 'string'` -/
def isString : Chunk Obj → Bool
  | .string _ => true
  | _ => false

end Chunk

namespace Readable

/-- The elements of all chunks in a list. -/
def elementsOf (objectMode : Bool) (list : List (Chunk Obj)) : List (Element Obj) :=
  list.flatMap (Chunk.elements objectMode)

section ElementsOf

variable (objectMode : Bool) (chunk : Chunk Obj) (list list' : List (Chunk Obj))

@[simp] theorem elementsOf_nil : elementsOf objectMode ([] : List (Chunk Obj)) = [] := rfl

@[simp] theorem elementsOf_cons :
    elementsOf objectMode (chunk :: list) = chunk.elements objectMode ++
      elementsOf objectMode list := by
  simp [elementsOf]

@[simp] theorem elementsOf_append : elementsOf objectMode (list ++ list') =
    elementsOf objectMode list ++ elementsOf objectMode list' := by
  simp [elementsOf]

end ElementsOf

/-- What the stream holds. -/
def ReadableState.sequence (s : ReadableState Obj) : List (Element Obj) :=
  elementsOf s.objectMode s.buffer

/-- Outside object mode a stream with a decoder holds strings, any other one Buffers. -/
def fits (s : ReadableState Obj) (chunk : Chunk Obj) : Bool :=
  s.objectMode || if s.decoder.isSome then chunk.isString else chunk.isBuffer

/-- `length` is right, and the chunks are of one kind. -/
structure Sound (s : ReadableState Obj) : Prop where
  length : s.length = s.sequence.length
  uniform : ∀ chunk ∈ s.buffer, fits s chunk = true

/-! ## `fromList` -/

theorem pluck_elements (n : Nat) (list : List (Chunk Obj)) :
    elementsOf false (pluck n list).1 = (elementsOf false list).take n ∧
      elementsOf false (pluck n list).2 = (elementsOf false list).drop n := by
  induction list generalizing n with
  | nil => simp [pluck]
  | cons buf list ih =>
    simp only [pluck]
    split
    · rename_i zero
      simp [zero]
    split
    · rename_i part
      have within : min n buf.size = n := by omega
      have le : n ≤ (buf.elements false).length := by rw [buf.elements_length]; omega
      simp [within, take_append_of_le_length le, drop_append_of_le_length le]
    rename_i whole
    have exact : min n buf.size = buf.size := by omega
    obtain ⟨first, rest⟩ := ih (n - buf.size)
    have all : (buf.elements false).take buf.size = buf.elements false := by
      rw [← buf.elements_length, take_length]
    have le : (buf.elements false).length ≤ n := by rw [buf.elements_length]; omega
    simp only [exact, elementsOf_cons, Chunk.elements_sliceTo, all, first, rest]
    rw [take_append, take_of_length_le le, drop_append, drop_of_length_le le, buf.elements_length]
    simp

theorem pluck_kind (kind : Chunk Obj → Bool) (n : Nat) (list : List (Chunk Obj))
    (upTo : ∀ chunk k, kind chunk = true → kind (chunk.sliceTo k) = true)
    (beyond : ∀ chunk k, kind chunk = true → kind (chunk.sliceFrom k) = true)
    (all : ∀ chunk ∈ list, kind chunk = true) :
    (∀ chunk ∈ (pluck n list).1, kind chunk = true) ∧
      ∀ chunk ∈ (pluck n list).2, kind chunk = true := by
  induction list generalizing n with
  | nil => simp [pluck]
  | cons buf list ih =>
    have first := all buf mem_cons_self
    have others : ∀ chunk ∈ list, kind chunk = true :=
      fun chunk member => all chunk (mem_cons_of_mem _ member)
    simp only [pluck]
    split
    · simpa using ⟨first, others⟩
    split
    · simpa using ⟨upTo buf _ first, beyond buf _ first, others⟩
    obtain ⟨slices, left⟩ := ih (n - min n buf.size) others
    simpa using ⟨⟨upTo buf _ first, slices⟩, left⟩

theorem pluck_full (n : Nat) (list : List (Chunk Obj)) (full : ∀ chunk ∈ list, 0 < chunk.size) :
    ∀ chunk ∈ (pluck n list).2, 0 < chunk.size := by
  induction list generalizing n with
  | nil => simp [pluck]
  | cons buf list ih =>
    have others : ∀ chunk ∈ list, 0 < chunk.size :=
      fun chunk member => full chunk (mem_cons_of_mem _ member)
    simp only [pluck]
    split
    · exact full
    split
    · rename_i part
      simpa using ⟨Chunk.size_sliceFrom part, others⟩
    · exact ih _ others

variable {list : List (Chunk Obj)}

theorem elements_join (strings : ∀ chunk ∈ list, chunk.isString = true) :
    (Chunk.string (list.flatMap Chunk.units) : Chunk Obj).elements false =
      elementsOf false list := by
  induction list with
  | nil => rfl
  | cons chunk list ih =>
    have rest := ih fun c member => strings c (mem_cons_of_mem _ member)
    have here := strings chunk mem_cons_self
    cases chunk with
    | string =>
      rw [elementsOf_cons, ← rest]
      simp [Chunk.elements, Chunk.bytes, Chunk.units]
    | _ => cases here

theorem elements_bytes (buffers : ∀ chunk ∈ list, chunk.isBuffer = true) :
    (Chunk.buffer (list.flatMap Chunk.bytes) : Chunk Obj).elements false =
      elementsOf false list := by
  induction list with
  | nil => rfl
  | cons chunk list ih =>
    have rest := ih fun c member => buffers c (mem_cons_of_mem _ member)
    have here := buffers chunk mem_cons_self
    cases chunk with
    | buffer =>
      rw [elementsOf_cons, ← rest]
      simp [Chunk.elements, Chunk.bytes, Chunk.units]
    | _ => cases here

variable {n : Nat}

theorem fill_of_length {bytes : List UInt8} (exact : bytes.length = n) : fill n bytes = bytes := by
  simp [fill, ← exact]

theorem elements_fill
    (buffers : ∀ chunk ∈ list, chunk.isBuffer = true) (exact : (elementsOf false list).length = n) :
    (Chunk.buffer (fill n (list.flatMap Chunk.bytes)) : Chunk Obj).elements false =
      elementsOf false list := by
  have whole := elements_bytes buffers
  have bytes : (list.flatMap Chunk.bytes).length = n := by
    rw [← exact, ← whole]
    simp [Chunk.elements, Chunk.bytes, Chunk.units]
  rw [fill_of_length bytes, whole]

theorem elements_bufferConcat
    (buffers : ∀ chunk ∈ list, chunk.isBuffer = true) (exact : (elementsOf false list).length = n) :
    (bufferConcat list n).elements false = elementsOf false list := by
  cases list with
  | nil => rfl
  | cons first list =>
    cases list with
    | nil => simp [bufferConcat]
    | cons => exact elements_fill buffers exact

/-- What `fromList` returns are the first `k` elements, and the others stay. -/
structure Taken (s : ReadableState Obj) (k : Nat) (chunk : Chunk Obj)
    (left : List (Chunk Obj)) : Prop where
  first : chunk.elements s.objectMode = s.sequence.take k
  rest : elementsOf s.objectMode left = s.sequence.drop k
  uniform : ∀ chunk ∈ left, fits s chunk = true
  /-- no chunk becomes empty -/
  full : (∀ chunk ∈ s.buffer, 0 < chunk.size) → ∀ chunk ∈ left, 0 < chunk.size

variable {s : ReadableState Obj}

theorem fits_sliceTo (chunk : Chunk Obj) (k : Nat)
    (fit : fits s chunk = true) : fits s (chunk.sliceTo k) = true := by
  cases chunk <;> simpa [fits, Chunk.sliceTo, Chunk.isString, Chunk.isBuffer] using fit

theorem fits_sliceFrom (chunk : Chunk Obj) (k : Nat)
    (fit : fits s chunk = true) : fits s (chunk.sliceFrom k) = true := by
  cases chunk <;> simpa [fits, Chunk.sliceFrom, Chunk.isString, Chunk.isBuffer] using fit

theorem strings_or_buffers
    (mode : s.objectMode = false) (uniform : ∀ chunk ∈ list, fits s chunk = true) :
    (s.decoder.isSome = true → ∀ chunk ∈ list, chunk.isString = true) ∧
      (s.decoder.isSome = false → ∀ chunk ∈ list, chunk.isBuffer = true) := by
  constructor
  · intro text chunk member
    simpa [fits, mode, text] using uniform chunk member
  intro noText chunk member
  simpa [fits, mode, noText] using uniform chunk member

theorem fromList_objectMode (sound : Sound s) (mode : s.objectMode = true)
    (some_ : s.length ≠ 0) (n : Int) :
    ∃ chunk left, fromList n s = (some chunk, left) ∧ Taken s 1 chunk left := by
  cases list : s.buffer with
  | nil =>
    have zero := sound.length
    rw [ReadableState.sequence, list] at zero
    exact absurd zero some_
  | cons first rest =>
    refine ⟨first, rest, by simp [fromList, list, some_, mode], ?_, ?_, ?_, ?_⟩
    · simp [ReadableState.sequence, list, mode, Chunk.elements]
    · simp [ReadableState.sequence, list, mode, Chunk.elements]
    · exact fun chunk member => sound.uniform chunk (list ▸ mem_cons_of_mem _ member)
    · exact fun full chunk member => full chunk (list ▸ mem_cons_of_mem _ member)

theorem fromList_spec (sound : Sound s) (mode : s.objectMode = false)
    {n : Int} (positive : 0 < n) (within : n ≤ s.length) :
    ∃ chunk left, fromList n s = (some chunk, left) ∧ Taken s n.toNat chunk left := by
  have length := sound.length
  have some_ : s.length ≠ 0 := by omega
  obtain ⟨strings, buffers⟩ := strings_or_buffers mode sound.uniform
  cases list : s.buffer with
  | nil =>
    rw [ReadableState.sequence, list] at length
    exact absurd length some_
  | cons first rest =>
    have whole : s.sequence = elementsOf false (first :: rest) := by
      rw [ReadableState.sequence, mode, list]
    rw [list] at strings buffers
    have fit : ∀ chunk ∈ first :: rest, fits s chunk = true := list ▸ sound.uniform
    have fitRest : ∀ chunk ∈ rest, fits s chunk = true :=
      fun chunk member => fit chunk (mem_cons_of_mem _ member)
    have fullRest (full : ∀ chunk ∈ s.buffer, 0 < chunk.size) : ∀ chunk ∈ rest, 0 < chunk.size :=
      fun chunk member => full chunk (list ▸ mem_cons_of_mem _ member)
    have notZero : n ≠ 0 := by omega
    simp only [fromList, list, some_, if_false, mode, Bool.false_eq_true, notZero, decide_false,
      Bool.false_or, decide_eq_true_eq]
    split
    · -- read it all
      rename_i all
      have exact : n.toNat = s.sequence.length := by omega
      have taken (chunk : Chunk Obj)
          (same : chunk.elements false = elementsOf false (first :: rest)) :
          Taken s n.toNat chunk [] := by
        refine ⟨?_, ?_, by simp, by simp⟩
        · rw [mode, same, exact, take_length, whole]
        · rw [exact, drop_length, elementsOf_nil]
      split
      · rename_i text
        exact ⟨_, _, rfl, taken _ (elements_join (strings text))⟩
      rename_i noText
      refine ⟨_, _, rfl, taken _ (elements_bufferConcat (buffers (by simpa using noText)) ?_)⟩
      rw [← whole]
      omega
    have size := first.elements_length
    split
    · -- a part of the first chunk
      rename_i part
      have le : n.toNat ≤ (first.elements false).length := by omega
      refine ⟨_, _, rfl, ?_, ?_, ?_, fun full => ?_⟩
      · rw [mode, whole, elementsOf_cons, Chunk.elements_sliceTo, take_append_of_le_length le]
      · rw [mode, whole, elementsOf_cons, elementsOf_cons, Chunk.elements_sliceFrom,
          drop_append_of_le_length le]
      · simpa using ⟨fits_sliceFrom _ _ (fit first mem_cons_self), fitRest⟩
      · simpa using ⟨Chunk.size_sliceFrom (by omega), fullRest full⟩
    split
    · -- the first chunk
      rename_i match_
      have exact : n.toNat = (first.elements false).length := by omega
      refine ⟨_, _, rfl, ?_, ?_, fitRest, fullRest⟩
      · rw [mode, whole, elementsOf_cons, exact, take_left]
      · rw [mode, whole, elementsOf_cons, exact, drop_left]
    -- several chunks
    obtain ⟨slices, left⟩ := pluck_elements n.toNat (first :: rest)
    have fitLeft := (pluck_kind (fits s) n.toNat (first :: rest) fits_sliceTo fits_sliceFrom
      fit).2
    have taken (chunk : Chunk Obj)
        (same : chunk.elements false = elementsOf false (pluck n.toNat (first :: rest)).1) :
        Taken s n.toNat chunk (pluck n.toNat (first :: rest)).2 := by
      refine ⟨?_, ?_, fitLeft, fun full => pluck_full _ _ (list ▸ full)⟩
      · rw [mode, same, slices, whole]
      · rw [mode, left, whole]
    obtain ⟨asStrings, asBuffers⟩ := strings_or_buffers mode
      (pluck_kind (fits s) n.toNat (first :: rest) fits_sliceTo fits_sliceFrom fit).1
    split
    · rename_i text
      exact ⟨_, _, rfl, taken _ (elements_join (asStrings text))⟩
    rename_i noText
    refine ⟨_, _, rfl, taken _ (elements_fill (asBuffers (by simpa using noText)) ?_)⟩
    rw [slices, ← whole, length_take]
    omega

end Readable

end IoJs.Stream
