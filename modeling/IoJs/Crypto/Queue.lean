import IoJs.Crypto.Ring

/-!
# `NodeBIO` is a queue

Seen from outside, a `NodeBIO` is a list of bytes: what is written or committed goes to its end,
what is read is taken from its front. This holds along every sequence of operations in which
nothing is peeked at before the first buffer has been allocated.
-/

namespace IoJs.Crypto

open Library NodeBio List Option

/-! ## Operations -/

/-- An operation; what is committed is at most what `PeekWritable` has given. -/
inductive Op where
  | write (data : List UInt8)
  | commit (size : Nat) (produce : (n : Nat) → { data : List UInt8 // data.length ≤ n })
  | read (out : Bool) (size : Nat)
  | reset
  | peek

/-- What an operation gives. -/
inductive Result where
  | done
  | area (area : Area)
  | read (count : Nat) (bytes : List UInt8)
  | peek (bytes : List UInt8)

/-- One operation. -/
def NodeBio.step (bio : NodeBio) : Op → Option (NodeBio × Result)
  | .write data => do
      let bio ← bio.write data
      some (bio, .done)
  | .commit size produce => do
      let (bio, area) ← bio.peekWritable size
      let data := (produce area.size).1
      let bio ← bio.fill area data
      let bio ← bio.commit data.length
      some (bio, .area area)
  | .read out size => do
      let (bio, count, bytes) ← bio.read out size
      some (bio, .read count bytes)
  | .reset => do
      let bio ← bio.reset
      some (bio, .done)
  | .peek => do
      let bytes ← bio.peek
      some (bio, .peek bytes)

/-- An area is clear of the bytes that are unread and inside its buffer. -/
def Clear (bio : NodeBio) (area : Area) : Prop :=
  ∃ b, bio.heap area.buffer = some b ∧ b.writePos ≤ area.offset ∧ area.offset + area.size ≤ b.len

/-- What an operation on a queue may give, and the queue after it; of the `NodeBIO`, it is the
area of `PeekWritable` that counts. -/
inductive Queues (bio : NodeBio) (q : List UInt8) : Op → Result → List UInt8 → Prop
  | write (data : List UInt8) : Queues bio q (.write data) .done (q ++ data)
  | commit {size : Nat} {produce : (n : Nat) → { data : List UInt8 // data.length ≤ n }}
      {peeked : NodeBio} {area : Area} :
      bio.peekWritable size = some (peeked, area) → Clear peeked area →
      Queues bio q (.commit size produce) (.area area) (q ++ (produce area.size).1)
  | read (out : Bool) (size : Nat) :
      Queues bio q (.read out size) (.read (min size q.length) (if out then q.take size else []))
        (q.drop size)
  | reset : Queues bio q .reset .done []
  | peek {bytes : List UInt8} : bytes <+: q → Queues bio q .peek (.peek bytes) q

/-- A `NodeBIO` does what a queue does, one operation after the other. -/
def Refines : NodeBio → List UInt8 → List Op → Prop
  | bio, q, [] => bio.length = q.length
  | bio, q, op :: ops =>
    bio.length = q.length ∧
      ∃ bio' result q', bio.step op = some (bio', result) ∧ Queues bio q op result q' ∧
        Refines bio' q' ops

/-- The operation allocates a buffer if there is none. -/
def Op.allocates : Op → Bool
  | .write _ => true
  | .commit _ _ => true
  | .read _ _ => false
  | .reset => false
  | .peek => false

/-- Nothing is peeked at before something was to be written; `allocated` tells whether it was. -/
def Guarded : Bool → List Op → Prop
  | _, [] => True
  | allocated, op :: ops =>
    (op = .peek → allocated = true) ∧ Guarded (allocated || op.allocates) ops

/-! ## The queue that a `NodeBIO` holds -/

/-- There is no buffer yet. -/
structure Unallocated (bio : NodeBio) : Prop where
  readHead : bio.readHead = none
  writeHead : bio.writeHead = none
  initial_pos : 0 < bio.initial
  length : bio.length = 0

/-- The ring holds the bytes of a queue. -/
def Filled (bio : NodeBio) (q : List UInt8) : Prop :=
  ∃ front w spare, Ring bio front w spare ∧ contents bio.heap (front ++ [w]) = q ∧
    bio.length = q.length

/-- A `NodeBIO` holds a queue. -/
def Holds (allocated : Bool) (bio : NodeBio) (q : List UInt8) : Prop :=
  if allocated then Filled bio q else Unallocated bio ∧ q = []

section Steps

variable {bio : NodeBio} {q : List UInt8} {allocated : Bool}

theorem Holds.length_eq (holds : Holds allocated bio q) : bio.length = q.length := by
  cases allocated with
  | false =>
    obtain ⟨none, rfl⟩ := holds
    exact none.length
  | true =>
    obtain ⟨front, w, spare, -, -, length⟩ := holds
    exact length

theorem allocateFirst_ring (none : Unallocated bio) (hint : Nat) :
    Ring (bio.allocateFirst hint) [] bio.fresh [] ∧
      contents (bio.allocateFirst hint).heap [bio.fresh] = [] := by
  have there : (bio.allocateFirst hint).heap bio.fresh =
      some ⟨0, 0, max bio.initial hint, bio.fresh, fun _ => 0⟩ := Function.update_self _ _ _
  have spare : Buffer.Spare ⟨0, 0, max bio.initial hint, bio.fresh, fun _ => 0⟩ :=
    ⟨rfl, rfl, Nat.lt_of_lt_of_le none.initial_pos (Nat.le_max_left _ _)⟩
  refine ⟨⟨rfl, rfl, ⟨rfl, _, there, rfl⟩, nodup_singleton _, ?_, ?_, ?_, ?_⟩, ?_⟩
  · intro a member
    obtain rfl := mem_singleton.mp member
    exact Nat.lt_succ_self _
  · intro a member
    cases member
  · exact All.single there spare.open
  · intro a member
    cases member
  · rw [contents_single there, spare.unread]

section

variable (holds : Holds allocated bio q)
include holds

theorem Holds.allocate (hint : Nat) :
    ∃ bio' front w spare, bio.tryAllocateForWrite hint = some bio' ∧ Ring bio' front w spare ∧
      contents bio'.heap (front ++ [w]) = q ∧ bio'.length = q.length := by
  cases allocated with
  | false =>
    obtain ⟨none, rfl⟩ := holds
    obtain ⟨ring, bytes⟩ := allocateFirst_ring none hint
    refine ⟨bio.allocateFirst hint, [], bio.fresh, [], ?_, ring, bytes, none.length⟩
    rw [NodeBio.tryAllocateForWrite, none.writeHead]
  | true =>
    obtain ⟨front, w, spare, ring, bytes, length⟩ := holds
    obtain ⟨b, there, -⟩ := ring.writeBuffer
    obtain ⟨bio', spare', next, run, ring', bytes', length', -, -⟩ :=
      ring.tryAllocateForWrite hint there
    exact ⟨bio', front, w, spare', run, ring', bytes'.trans bytes, length'.trans length⟩

theorem Holds.write (data : List UInt8) :
    ∃ bio', bio.write data = some bio' ∧ Filled bio' (q ++ data) := by
  obtain ⟨bio₁, front, w, spare, allocated, ring, bytes, length⟩ := holds.allocate data.length
  obtain ⟨b, there, -⟩ := ring.writeBuffer
  have enough : data.length + (if b.writePos = b.len then 2 else 1) ≤ data.length + 2 := by
    split <;> omega
  obtain ⟨bio', front', w', spare', run, ring', bytes', length'⟩ :=
    ring.writeLoop (data.length + 2) there enough
  refine ⟨bio', ?_, front', w', spare', ring', ?_, ?_⟩
  · rw [NodeBio.write, allocated]
    exact run
  · rw [bytes', bytes]
  · rw [length', length, length_append]

theorem Holds.commit (size : Nat) (produce : (n : Nat) → { data : List UInt8 // data.length ≤ n }) :
    ∃ bio' peeked area, bio.step (.commit size produce) = some (bio', .area area) ∧
      bio.peekWritable size = some (peeked, area) ∧ Clear peeked area ∧
      Filled bio' (q ++ (produce area.size).1) := by
  obtain ⟨bio₁, front, w, spare, allocated, ring, bytes, length⟩ := holds.allocate size
  obtain ⟨b, there, open_⟩ := ring.writeBuffer
  have le := open_.write_le
  generalize room : (if size ≠ 0 ∧ b.len - b.writePos > size then size
    else b.len - b.writePos) = n
  have inside : b.writePos + n ≤ b.len := by
    rw [← room]
    split <;> omega
  have peeked : bio.peekWritable size = some (bio₁, ⟨w, b.writePos, n⟩) := by
    rw [NodeBio.peekWritable, allocated]
    simp only [bind_eq_bind, bind_some, ring.writeHead, there, room]
  have fits : b.writePos + (produce n).1.length ≤ b.len :=
    Nat.le_trans (Nat.add_le_add_left (produce n).2 _) inside
  obtain ⟨filled, bio', front', w', spare', fill, commit, ring', bytes', length'⟩ :=
    ring.commit there (produce n).1 n fits
  refine ⟨bio', bio₁, _, ?_, peeked, ⟨b, there, Nat.le_refl _, inside⟩, front', w', spare', ring',
    ?_, ?_⟩
  · rw [NodeBio.step, peeked]
    simp only [bind_eq_bind, bind_some, fill, commit]
  · rw [bytes', bytes]
  · rw [length', length, length_append]

end

theorem Unallocated.read (none : Unallocated bio) (out : Bool) (size : Nat) :
    bio.read out size = some (bio, 0, []) := by
  have expected : (if bio.length > size then size else bio.length) = 0 := by
    rw [none.length]
    simp
  have empty : bio.freeEmpty = some bio := by rw [NodeBio.freeEmpty, none.writeHead]
  have freed : ({ bio with length := bio.length - 0 } : NodeBio).freeEmpty = some bio := empty
  rw [NodeBio.read, expected, NodeBio.readLoop, if_neg (Nat.lt_irrefl 0)]
  simp only [bind_eq_bind, bind_some, if_true, freed, ite_self]

theorem Filled.read (filled : Filled bio q) (out : Bool) (size : Nat) : ∃ bio', bio.read out size =
      some (bio', min size q.length, if out then q.take size else []) ∧
    Filled bio' (q.drop size) := by
  obtain ⟨front, w, spare, ring, bytes, length⟩ := filled
  rw [← bytes] at length
  obtain ⟨bio', front', w', spare', read, ring', bytes', length'⟩ := ring.read out size length
  rw [length, bytes] at read
  refine ⟨bio', read, front', w', spare', ring', bytes'.trans (by rw [bytes]), ?_⟩
  rw [length', length, bytes, length_drop]
  omega

theorem Filled.reset (filled : Filled bio q) : ∃ bio', bio.reset = some bio' ∧ Filled bio' [] := by
  obtain ⟨front, w, spare, ring, bytes, length⟩ := filled
  rw [← bytes] at length
  obtain ⟨bio', w', spare', reset, ring', bytes', length'⟩ := ring.reset length
  exact ⟨bio', reset, [], w', spare', ring', bytes', length'⟩

theorem Filled.peek (filled : Filled bio q) : ∃ bytes, bio.peek = some bytes ∧ bytes <+: q := by
  obtain ⟨front, w, spare, ring, bytes, -⟩ := filled
  obtain ⟨b, there, -⟩ := ring.readBuffer
  refine ⟨b.unread, ?_, ?_⟩
  · rw [NodeBio.peek, ring.readHead]
    simp only [there, bind_eq_bind, bind_some]
    rfl
  rw [← bytes]
  cases front with
  | nil =>
    have whole : contents bio.heap ([] ++ [w]) = b.unread := contents_single there
    rw [whole]
  | cons a front =>
    have first : contents bio.heap (a :: front ++ [w]) =
        b.unread ++ contents bio.heap (front ++ [w]) := contents_cons there
    rw [first]
    exact prefix_append _ _

/-- **An operation on the ring is one on the queue**, and leaves a ring that holds the new queue. -/
theorem Holds.step (holds : Holds allocated bio q) (op : Op)
    (guarded : op = .peek → allocated = true) :
    ∃ bio' result q', bio.step op = some (bio', result) ∧ Queues bio q op result q' ∧
      Holds (allocated || op.allocates) bio' q' := by
  cases op with
  | write data =>
    obtain ⟨bio', write, filled⟩ := holds.write data
    refine ⟨bio', .done, q ++ data, ?_, .write data, ?_⟩
    · simp only [NodeBio.step, write, bind_eq_bind, bind_some]
    rw [Op.allocates, Bool.or_true]
    exact filled
  | commit size produce =>
    obtain ⟨bio', peeked, area, step, peek, clear, filled⟩ := holds.commit size produce
    refine ⟨bio', .area area, _, step, .commit peek clear, ?_⟩
    rw [Op.allocates, Bool.or_true]
    exact filled
  | read out size =>
    cases allocated with
    | false =>
      obtain ⟨none, rfl⟩ := holds
      have nothing : Queues bio [] (.read out size) (.read 0 []) [] := by
        have reads : Queues bio [] (.read out size) _ _ := .read out size
        simpa using reads
      refine ⟨bio, .read 0 [], [], ?_, nothing, ⟨none, rfl⟩⟩
      simp only [NodeBio.step, none.read, bind_eq_bind, bind_some]
    | true =>
      obtain ⟨bio', read, filled⟩ := Filled.read holds out size
      refine ⟨bio', _, _, ?_, .read out size, filled⟩
      simp only [NodeBio.step, read, bind_eq_bind, bind_some]
  | reset =>
    cases allocated with
    | false =>
      obtain ⟨none, rfl⟩ := holds
      refine ⟨bio, .done, [], ?_, .reset, ⟨none, rfl⟩⟩
      simp only [NodeBio.step, NodeBio.reset, none.readHead, bind_eq_bind, bind_some]
    | true =>
      obtain ⟨bio', reset, filled⟩ := Filled.reset holds
      refine ⟨bio', .done, [], ?_, .reset, filled⟩
      simp only [NodeBio.step, reset, bind_eq_bind, bind_some]
  | peek =>
    obtain rfl := guarded rfl
    obtain ⟨bytes, peek, first⟩ := Filled.peek holds
    refine ⟨bio, .peek bytes, q, ?_, .peek first, holds⟩
    simp only [NodeBio.step, peek, bind_eq_bind, bind_some]

theorem Queues.unique {op : Op} {result : Result} {q₁ q₂ : List UInt8}
    (first : Queues bio q op result q₁) (second : Queues bio q op result q₂) : q₁ = q₂ := by
  cases first with
  | write | commit | read | reset | peek =>
    cases second
    rfl

end Steps

/-! ## Sequences of operations -/

theorem refines_iff {allocated : Bool} {bio : NodeBio} {q : List UInt8}
    (holds : Holds allocated bio q) (ops : List Op) :
    Refines bio q ops ↔ Guarded allocated ops := by
  induction ops generalizing allocated bio q with
  | nil => exact ⟨fun _ => trivial, fun _ => holds.length_eq⟩
  | cons op ops ih =>
    constructor
    · rintro ⟨-, bio', result, q', step, queues, rest⟩
      have guarded : op = .peek → allocated = true := by
        rintro rfl
        cases allocated with
        | true => rfl
        | false =>
          have null : bio.step .peek = none := by
            simp only [NodeBio.step, NodeBio.peek, holds.1.readHead, bind_eq_bind, bind_none]
          rw [null] at step
          cases step
      obtain ⟨bio₁, result₁, q₁, step₁, queues₁, holds₁⟩ := holds.step op guarded
      rw [step₁, some_inj, Prod.mk.injEq] at step
      obtain ⟨rfl, rfl⟩ := step
      obtain rfl := queues.unique queues₁
      exact ⟨guarded, (ih holds₁).mp rest⟩
    rintro ⟨guarded, rest⟩
    obtain ⟨bio₁, result₁, q₁, step₁, queues₁, holds₁⟩ := holds.step op guarded
    exact ⟨holds.length_eq, bio₁, result₁, q₁, step₁, queues₁, (ih holds₁).mpr rest⟩

/-- A `NodeBIO` is a queue along a sequence of operations if and only if nothing is peeked at
before a buffer was allocated. -/
theorem node_bio_queues (ops : List Op) : Refines NodeBio.new [] ops ↔ Guarded false ops := by
  have none : Unallocated NodeBio.new := ⟨rfl, rfl, by decide, rfl⟩
  have holds : Holds false NodeBio.new [] := ⟨none, rfl⟩
  exact refines_iff holds ops

/-- `Peek` follows a null pointer where nothing was written. -/
theorem peek_before_write : ¬ Refines NodeBio.new [] [.peek] := by
  rintro ⟨-, bio', result, q', step, -⟩
  cases step

end IoJs.Crypto
