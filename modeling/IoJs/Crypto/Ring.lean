import IoJs.Crypto.NodeBio

/-!
# The ring of a `NodeBIO`

From the read head to the write head come the buffers with the bytes that are unread, all full
but the last; from the write head on come empty ones, back to the read head. The operations
turn the ring and keep it so.
-/

namespace IoJs.Crypto

open Library List Option
open Function (update_idem update_of_ne update_self)

/-! ## Buffers -/

namespace Buffer

/-- The bytes that have been written and not read. -/
def unread (b : Buffer) : List UInt8 := b.data.bytes b.readPos (b.writePos - b.readPos)

/-- A buffer before the write head -/
structure Full (b : Buffer) : Prop where
  some_unread : b.readPos < b.writePos
  full : b.writePos = b.len

/-- The buffer at the write head -/
structure Open (b : Buffer) : Prop where
  read_le : b.readPos ≤ b.writePos
  write_le : b.writePos ≤ b.len
  len_pos : 0 < b.len
  /-- positions that have met are reset -/
  met : b.readPos = b.writePos → b.readPos = 0

/-- A buffer behind the write head -/
structure Spare (b : Buffer) : Prop where
  read : b.readPos = 0
  write : b.writePos = 0
  len_pos : 0 < b.len

variable {b : Buffer}

theorem Spare.open (spare : b.Spare) : b.Open :=
  ⟨by rw [spare.read, spare.write], by rw [spare.write]; exact Nat.zero_le _, spare.len_pos,
    fun _ => spare.read⟩

theorem Spare.unread (spare : b.Spare) : b.unread = [] := by
  rw [Buffer.unread, spare.read, spare.write]
  rfl

theorem Open.full (open_ : b.Open) (full : b.writePos = b.len) : b.Full := by
  refine ⟨?_, full⟩
  have := open_.read_le
  have := open_.len_pos
  by_contra none_unread
  have := open_.met (by omega)
  omega

theorem Full.open (full : b.Full) : b.Open := by
  have := full.some_unread
  have := full.full
  exact ⟨by omega, by omega, by omega, fun met => by omega⟩

theorem length_unread (b : Buffer) : b.unread.length = b.writePos - b.readPos := by
  simp [Buffer.unread]

end Buffer

/-! ## Rings -/

/-- The bytes in some buffers -/
def contents (heap : Heap Buffer) (addresses : List Nat) : List UInt8 :=
  addresses.flatMap fun a => (heap a).elim [] Buffer.unread

/-- All of some buffers are so. -/
def All (P : Buffer → Prop) (heap : Heap Buffer) (addresses : List Nat) : Prop :=
  ∀ a ∈ addresses, ∃ b, heap a = some b ∧ P b

/-- The ring: full buffers from the read head, the write head, and spare ones. -/
structure Ring (bio : NodeBio) (front : List Nat) (w : Nat) (spare : List Nat) : Prop where
  readHead : bio.readHead = some (front.headD w)
  writeHead : bio.writeHead = some w
  chain : Chain Buffer.next bio.heap (front.headD w) (front ++ w :: spare) (front.headD w)
  nodup : (front ++ w :: spare).Nodup
  allocated : ∀ a ∈ front ++ w :: spare, a < bio.fresh
  full : All Buffer.Full bio.heap front
  open_ : All Buffer.Open bio.heap [w]
  spare : All Buffer.Spare bio.heap spare

section Heap

variable {P : Buffer → Prop} {heap : Heap Buffer} {addresses addresses' : List Nat}
variable {a : Nat} {b : Buffer} {cell : Option Buffer}

theorem contents_append (heap : Heap Buffer) (addresses addresses' : List Nat) :
    contents heap (addresses ++ addresses') = contents heap addresses ++ contents heap addresses' :=
  flatMap_append

theorem contents_cons (there : heap a = some b) :
    contents heap (a :: addresses) = b.unread ++ contents heap addresses := by
  simp [contents, there]

theorem contents_single (there : heap a = some b) : contents heap [a] = b.unread := by
  rw [contents_cons there, contents, flatMap_nil, append_nil]

theorem contents_congr {heap' : Heap Buffer}
    (same : ∀ a ∈ addresses, (heap' a).elim [] Buffer.unread = (heap a).elim [] Buffer.unread) :
    contents heap' addresses = contents heap addresses :=
  flatMap_congr same

theorem contents_update (outside : a ∉ addresses) :
    contents (Function.update heap a cell) addresses = contents heap addresses := by
  apply contents_congr
  intro b member
  rw [update_of_ne]
  rintro rfl
  exact outside member

theorem All.update (all : All P heap addresses)
    (outside : a ∉ addresses) : All P (Function.update heap a cell) addresses := by
  intro b member
  obtain ⟨cell', there, holds⟩ := all b member
  refine ⟨cell', ?_, holds⟩
  rw [update_of_ne, there]
  rintro rfl
  exact outside member

theorem All.append (all : All P heap addresses) (all' : All P heap addresses') :
    All P heap (addresses ++ addresses') := by
  intro a member
  rcases mem_append.mp member with first | second
  · exact all a first
  · exact all' a second

theorem All.at (all : All P heap addresses) (member : a ∈ addresses) (there : heap a = some b) :
    P b := by
  obtain ⟨b', there', holds⟩ := all a member
  cases there.symm.trans there'
  exact holds

theorem All.single (there : heap a = some b) (holds : P b) : All P heap [a] := by
  intro a' member
  obtain rfl := mem_singleton.mp member
  exact ⟨b, there, holds⟩

end Heap

namespace Ring

variable {bio : NodeBio} {front spare : List Nat} {w : Nat} {b : Buffer}

section

variable (ring : Ring bio front w spare)
include ring

theorem writeBuffer : ∃ b, bio.heap w = some b ∧ b.Open := ring.open_ w (mem_singleton_self _)

theorem open_of_write (there : bio.heap w = some b) : b.Open :=
  ring.open_.at (mem_singleton_self _) there

theorem next_eq (there : bio.heap w = some b) : b.next = spare.headD (front.headD w) := by
  obtain ⟨mid, -, rest⟩ := chain_append.mp ring.chain
  obtain ⟨-, cell, there', behind⟩ := rest
  cases there.symm.trans there'
  exact behind.start_eq

theorem head_notMem_spare : front.headD w ∉ spare := by
  have distinct := ring.nodup
  cases front with
  | nil => exact (nodup_cons.mp distinct).1
  | cons =>
    intro member
    exact (nodup_cons.mp distinct).1
      (mem_append_right _ (mem_cons_of_mem _ member))

theorem notMem_of_front {a : Nat} (member : a ∈ front) : a ≠ w ∧ a ∉ spare := by
  have parts := nodup_append.mp ring.nodup
  constructor
  · exact parts.2.2 a member w mem_cons_self
  intro behind
  exact parts.2.2 a member a (mem_cons_of_mem _ behind) rfl

theorem write_notMem_front : w ∉ front := fun member => (ring.notMem_of_front member).1 rfl

theorem write_notMem_spare : w ∉ spare := (nodup_cons.mp (nodup_append.mp ring.nodup).2.1).1

theorem fresh_notMem : bio.fresh ∉ front ++ w :: spare :=
  fun member => Nat.lt_irrefl _ (ring.allocated _ member)

theorem readBuffer : ∃ b, bio.heap (front.headD w) = some b ∧ b.Open := by
  cases front with
  | nil => exact ring.writeBuffer
  | cons a =>
    obtain ⟨b, there, full⟩ := ring.full a mem_cons_self
    exact ⟨b, there, full.open⟩

theorem with_length (length : Nat) : Ring { bio with length } front w spare :=
  ⟨ring.readHead, ring.writeHead, ring.chain, ring.nodup, ring.allocated, ring.full, ring.open_,
    ring.spare⟩

theorem put_write (there : bio.heap w = some b)
    (b' : Buffer) (next : b'.next = b.next) (open_ : b'.Open) :
    Ring (bio.put w b') front w spare :=
  ⟨ring.readHead, ring.writeHead, ring.chain.update there next, ring.nodup, ring.allocated,
    ring.full.update ring.write_notMem_front, All.single (update_self _ _ _) open_,
    ring.spare.update ring.write_notMem_spare⟩

theorem contents_put_write {b' : Buffer} :
    contents (bio.put w b').heap (front ++ [w]) = contents bio.heap front ++ b'.unread := by
  have here : (bio.put w b').heap w = some b' := update_self _ _ _
  rw [contents_append, contents_single here]
  exact congrArg (· ++ _) (contents_update ring.write_notMem_front)

end

/-! ## Room to write -/

theorem allocateNext (ring : Ring bio front w []) (there : bio.heap w = some b)
    (hint : Nat) : Ring (bio.allocateNext w b hint) front w [bio.fresh] := by
  have outside := ring.fresh_notMem
  have ne : bio.fresh ≠ w := by grind
  have outside_front : bio.fresh ∉ front := fun member => outside (mem_append_left _ member)
  have next := ring.next_eq there
  obtain ⟨mid, first, here, -⟩ := chain_append.mp ring.chain
  have open_ := ring.open_of_write there
  have at_w : (bio.allocateNext w b hint).heap w = some { b with next := bio.fresh } :=
    update_self _ _ _
  have at_fresh : (bio.allocateNext w b hint).heap bio.fresh =
      some ⟨0, 0, max NodeBio.kThroughputBufferLength hint, b.next, fun _ => 0⟩ := by
    simp only [NodeBio.allocateNext, NodeBio.put]
    rw [update_of_ne ne, update_self]
  refine ⟨ring.readHead, ring.writeHead, ?_, ?_, ?_, ?_, ?_, ?_⟩
  · refine chain_append.mpr ⟨mid, ?_, here, _, at_w, rfl, _, at_fresh, next⟩
    exact (first.update_of_notMem outside_front).update_of_notMem ring.write_notMem_front
  · have split : front ++ w :: [bio.fresh] = (front ++ [w]) ++ [bio.fresh] := by simp
    rw [split, nodup_append]
    refine ⟨ring.nodup, nodup_singleton _, ?_⟩
    intro a member a' member'
    obtain rfl := mem_singleton.mp member'
    rintro rfl
    exact outside member
  · intro a member
    have split : front ++ w :: [bio.fresh] = (front ++ [w]) ++ [bio.fresh] := by simp
    rw [split] at member
    rcases mem_append.mp member with old | new
    · exact Nat.lt_succ_of_lt (ring.allocated a old)
    obtain rfl := mem_singleton.mp new
    exact Nat.lt_succ_self _
  · exact (ring.full.update outside_front).update ring.write_notMem_front
  · exact All.single at_w ⟨open_.read_le, open_.write_le, open_.len_pos, open_.met⟩
  refine All.single at_fresh ⟨rfl, rfl, ?_⟩
  exact Nat.lt_of_lt_of_le (by decide) (Nat.le_max_left _ _)

theorem contents_allocateNext (ring : Ring bio front w [])
    (there : bio.heap w = some b) (hint : Nat) :
    contents (bio.allocateNext w b hint).heap (front ++ [w]) =
      contents bio.heap (front ++ [w]) := by
  have outside := ring.fresh_notMem
  apply contents_congr
  intro a member
  simp only [NodeBio.allocateNext, NodeBio.put]
  by_cases here : a = w
  · rw [here, update_self, there]
    rfl
  have ne : a ≠ bio.fresh := by
    rintro rfl
    exact outside member
  rw [update_of_ne here, update_of_ne ne]

theorem tryAllocateForWrite (ring : Ring bio front w spare) (hint : Nat)
    (there : bio.heap w = some b) :
    ∃ bio' spare' next, bio.tryAllocateForWrite hint = some bio' ∧ Ring bio' front w spare' ∧
      contents bio'.heap (front ++ [w]) = contents bio.heap (front ++ [w]) ∧
      bio'.length = bio.length ∧ bio'.heap w = some { b with next } ∧
      (b.writePos = b.len → spare' ≠ []) := by
  rw [NodeBio.tryAllocateForWrite, ring.writeHead]
  simp only [there, bind_eq_bind, bind_some]
  by_cases full : b.writePos = b.len
  · rw [if_pos full, ring.next_eq there, ring.readHead]
    cases spare with
    | nil =>
      refine ⟨_, [bio.fresh], bio.fresh, if_pos rfl, ring.allocateNext there hint,
        ring.contents_allocateNext there hint, rfl, update_self _ _ _, ?_⟩
      intro _
      simp
    | cons e spare =>
      have other : ¬ some e = some (front.headD w) := by
        intro same
        exact ring.head_notMem_spare (some.inj same ▸ mem_cons_self)
      obtain ⟨n, there', empty⟩ := ring.spare e mem_cons_self
      refine ⟨bio, e :: spare, b.next, ?_, ring, rfl, rfl, there, by simp⟩
      rw [headD_cons, if_neg other, there']
      simp [empty.write]
  refine ⟨bio, spare, b.next, if_neg full, ring, rfl, rfl, there, ?_⟩
  intro full'
  exact absurd full' full

theorem moveReadHead (ring : Ring bio front w spare) (fuel : Nat) :
    NodeBio.moveReadHead (fuel + 1) bio = some bio := by
  obtain ⟨b, there, open_⟩ := ring.readBuffer
  have done : ¬ (b.readPos ≠ 0 ∧ b.readPos = b.writePos) := by
    rintro ⟨some_read, met⟩
    exact some_read (open_.met met)
  rw [NodeBio.moveReadHead, ring.readHead]
  simp only [there, bind_eq_bind, bind_some, if_neg done]

theorem headD_append (front : List Nat) (w e : Nat) : (front ++ [w]).headD e = front.headD w := by
  cases front <;> rfl

theorem nextWriteHead {e : Nat} (ring : Ring bio front w (e :: spare))
    (there : bio.heap w = some b) (full : b.writePos = b.len) :
    ∃ bio', bio.nextWriteHead = some bio' ∧ Ring bio' (front ++ [w]) e spare ∧
      contents bio'.heap (front ++ [w] ++ [e]) = contents bio.heap (front ++ [w]) ∧
      bio'.length = bio.length ∧ bio'.heap = bio.heap := by
  have next : b.next = e := ring.next_eq there
  have open_ := ring.open_of_write there
  obtain ⟨n, at_e, empty⟩ := ring.spare e mem_cons_self
  have split : front ++ w :: e :: spare = front ++ [w] ++ e :: spare := by simp
  have moved : Ring { bio with writeHead := some e } (front ++ [w]) e spare := by
    refine ⟨?_, rfl, ?_, ?_, ?_, ?_, ?_, ?_⟩
    · rw [headD_append]
      exact ring.readHead
    · rw [headD_append, ← split]
      exact ring.chain
    · rw [← split]
      exact ring.nodup
    · rw [← split]
      exact ring.allocated
    · exact ring.full.append (All.single there (open_.full full))
    · exact All.single at_e empty.open
    intro a member
    exact ring.spare a (mem_cons_of_mem _ member)
  refine ⟨_, ?_, moved, ?_, rfl, rfl⟩
  · rw [NodeBio.nextWriteHead, ring.writeHead]
    simp only [there, next, bind_eq_bind, bind_some]
    exact moved.moveReadHead _
  · rw [contents_append, contents_single at_e, empty.unread, append_nil]

end Ring

/-! ## Writing -/

theorem Memory.bytes_copy (data : Memory) (offset : Nat) (bytes : List UInt8) :
    (data.copy offset bytes).bytes offset bytes.length = bytes := by
  apply ext_getElem
  · simp
  intro i _ inside
  simp [Memory.bytes, Memory.copy, inside]

theorem Memory.bytes_copy_below (data : Memory) {start size offset : Nat} (bytes : List UInt8)
    (below : start + size ≤ offset) :
    (data.copy offset bytes).bytes start size = data.bytes start size := by
  apply map_congr_left
  intro i member
  have small := mem_range.mp member
  have outside : ¬ (offset ≤ start + i ∧ start + i < offset + bytes.length) := by omega
  rw [Memory.copy, if_neg outside]

namespace Buffer

variable {b : Buffer}

/-- A buffer with more bytes in it. -/
def extend (b : Buffer) (bytes : List UInt8) : Buffer :=
  { b with
    data := b.data.copy b.writePos bytes
    writePos := b.writePos + bytes.length }

theorem Open.extend (open_ : b.Open) {bytes : List UInt8}
    (room : b.writePos + bytes.length ≤ b.len) : (b.extend bytes).Open := by
  have := open_.read_le
  refine ⟨Nat.le_trans open_.read_le (Nat.le_add_right _ _), room, open_.len_pos, ?_⟩
  intro met
  simp only [Buffer.extend] at met ⊢
  exact open_.met (by omega)

theorem Open.unread_extend (open_ : b.Open) (bytes : List UInt8) :
    (b.extend bytes).unread = b.unread ++ bytes := by
  have le := open_.read_le
  have size : b.writePos + bytes.length - b.readPos = (b.writePos - b.readPos) + bytes.length := by
    omega
  have offset : b.readPos + (b.writePos - b.readPos) = b.writePos := by omega
  simp only [Buffer.unread, Buffer.extend]
  rw [size, Memory.bytes_add, offset, Memory.bytes_copy,
    Memory.bytes_copy_below _ _ (Nat.le_of_eq offset)]

end Buffer

namespace Ring

variable {bio : NodeBio} {front spare : List Nat} {w : Nat} {b : Buffer}

theorem writeLoop (fuel : Nat) {data : List UInt8} (ring : Ring bio front w spare)
    (there : bio.heap w = some b)
    (enough : data.length + (if b.writePos = b.len then 2 else 1) ≤ fuel) :
    ∃ bio' front' w' spare', NodeBio.writeLoop fuel bio data = some bio' ∧
      Ring bio' front' w' spare' ∧
      contents bio'.heap (front' ++ [w']) = contents bio.heap (front ++ [w]) ++ data ∧
      bio'.length = bio.length + data.length := by
  induction fuel generalizing bio front w spare data b with
  | zero => split at enough <;> omega
  | succ fuel ih =>
    rw [NodeBio.writeLoop]
    by_cases done : data = []
    · refine ⟨bio, front, w, spare, if_pos done, ring, ?_, ?_⟩ <;> simp [done]
    have open_ := ring.open_of_write there
    have some_data := length_pos_iff.mpr done
    rw [if_neg done, ring.writeHead]
    simp only [there, bind_eq_bind, bind_some, if_pos open_.write_le]
    have le := open_.write_le
    generalize size : min data.length (b.len - b.writePos) = toWrite
    have taken : (data.take toWrite).length = toWrite := by
      rw [length_take]
      omega
    have room : b.writePos + (data.take toWrite).length ≤ b.len := by omega
    have extended : ({ b with
        data := b.data.copy b.writePos (data.take toWrite)
        writePos := b.writePos + toWrite } : Buffer) = b.extend (data.take toWrite) := by
      rw [Buffer.extend, taken]
    have written := (ring.put_write there (b.extend (data.take toWrite)) rfl
      (open_.extend room)).with_length (bio.length + toWrite)
    have bytes : contents (bio.put w (b.extend (data.take toWrite))).heap (front ++ [w]) =
        contents bio.heap (front ++ [w]) ++ data.take toWrite := by
      rw [ring.contents_put_write, open_.unread_extend, contents_append, contents_single there,
        append_assoc]
    have at_w : (bio.put w (b.extend (data.take toWrite))).heap w =
        some (b.extend (data.take toWrite)) := update_self _ _ _
    have inside : b.writePos + toWrite ≤ b.len := taken ▸ room
    rw [extended, if_pos inside]
    by_cases left : data.drop toWrite = []
    · -- all is written
      obtain ⟨fuel, rfl⟩ : ∃ n, fuel = n + 1 :=
        Nat.exists_eq_add_one.mpr (by split at enough <;> omega)
      have whole : data.length ≤ toWrite := drop_eq_nil_iff.mp left
      rw [take_of_length_le whole] at written bytes ⊢
      refine ⟨_, front, w, spare, ?_, written, bytes, ?_⟩
      · rw [if_neg (not_not.mpr left), left, NodeBio.writeLoop, if_pos rfl]
      simp only
      omega
    -- the write head is full and goes on
    have more : toWrite < data.length := by
      by_contra whole
      exact left (drop_eq_nil_iff.mpr (by omega))
    have at_end : b.writePos + toWrite = b.len := by omega
    have full : (b.extend (data.take toWrite)).writePos = (b.extend (data.take toWrite)).len := by
      simp only [Buffer.extend, taken, at_end]
    rw [if_pos left, if_pos at_end]
    obtain ⟨bio₁, spare₁, next, allocated, ring₁, bytes₁, length₁, at_w₁, room₁⟩ :=
      written.tryAllocateForWrite (data.drop toWrite).length at_w
    obtain ⟨e, spare₂, rfl⟩ := exists_cons_of_ne_nil (room₁ full)
    obtain ⟨bio₂, moved, ring₂, bytes₂, length₂, heap₂⟩ := ring₁.nextWriteHead at_w₁ full
    obtain ⟨n, at_e, empty⟩ := ring₁.spare e mem_cons_self
    have not_full : ¬ n.writePos = n.len := by
      have := empty.len_pos
      rw [empty.write]
      omega
    have enough' : (data.drop toWrite).length + (if n.writePos = n.len then 2 else 1) ≤ fuel := by
      grind
    obtain ⟨bio', front', w', spare', run, ring', bytes', length'⟩ :=
      ih ring₂ (heap₂ ▸ at_e) enough'
    refine ⟨bio', front', w', spare', ?_, ring', ?_, ?_⟩
    · rw [allocated, bind_some, moved, bind_some, run]
    · rw [bytes', bytes₂, bytes₁, bytes, append_assoc, take_append_drop]
    · grind

theorem commit (ring : Ring bio front w spare) (there : bio.heap w = some b)
    (data : List UInt8) (n : Nat) (room : b.writePos + data.length ≤ b.len) :
    ∃ filled bio' front' w' spare', bio.fill ⟨w, b.writePos, n⟩ data = some filled ∧
      filled.commit data.length = some bio' ∧ Ring bio' front' w' spare' ∧
      contents bio'.heap (front' ++ [w']) = contents bio.heap (front ++ [w]) ++ data ∧
      bio'.length = bio.length + data.length := by
  have open_ := ring.open_of_write there
  have written := (ring.put_write there (b.extend data) rfl (open_.extend room)).with_length
    (bio.length + data.length)
  have bytes : contents (bio.put w (b.extend data)).heap (front ++ [w]) =
      contents bio.heap (front ++ [w]) ++ data := by
    simp [ring.contents_put_write, open_.unread_extend, contents_append, contents_single there]
  have at_w : (bio.put w (b.extend data)).heap w = some (b.extend data) := update_self _ _ _
  obtain ⟨bio₁, spare₁, next, allocated, ring₁, bytes₁, length₁, at_w₁, room₁⟩ :=
    written.tryAllocateForWrite 0 at_w
  refine ⟨bio.put w { b with data := b.data.copy b.writePos data }, ?_⟩
  -- filled and committed, the buffer is extended
  have committed : (bio.put w { b with data := b.data.copy b.writePos data }).commit data.length =
      if (b.extend data).writePos = (b.extend data).len then bio₁.nextWriteHead else some bio₁ := by
    rw [NodeBio.commit]
    simp only [NodeBio.put, ring.writeHead, bind_eq_bind, bind_some,
      update_self, update_idem, if_pos room]
    simp only [NodeBio.put, ring.writeHead, Buffer.extend] at allocated
    rw [allocated]
    simp [ring₁.writeHead, at_w₁]
  have filled : bio.fill ⟨w, b.writePos, n⟩ data =
      some (bio.put w { b with data := b.data.copy b.writePos data }) := by
    simp [NodeBio.fill, there]
  by_cases full : (b.extend data).writePos = (b.extend data).len
  · obtain ⟨e, spare₂, rfl⟩ := exists_cons_of_ne_nil (room₁ full)
    obtain ⟨bio₂, moved, ring₂, bytes₂, length₂, -⟩ := ring₁.nextWriteHead at_w₁ full
    refine ⟨bio₂, front ++ [w], e, spare₂, filled, ?_, ring₂, ?_, ?_⟩
    · rw [committed, if_pos full, moved]
    · rw [bytes₂, bytes₁, bytes]
    · rw [length₂, length₁]
  refine ⟨bio₁, front, w, spare₁, filled, ?_, ring₁, ?_, length₁⟩
  · rw [committed, if_neg full]
  · rw [bytes₁, bytes]

end Ring

/-! ## Reading -/

namespace Buffer

variable {b : Buffer}

/-- A buffer of which some bytes have been read. -/
def skip (b : Buffer) (n : Nat) : Buffer := { b with readPos := b.readPos + n }

/-- A buffer with its positions reset. -/
def clear (b : Buffer) : Buffer := { b with readPos := 0, writePos := 0 }

theorem unread_skip {n : Nat} (le : n ≤ b.writePos - b.readPos) :
    b.unread = b.data.bytes b.readPos n ++ (b.skip n).unread := by
  have size : b.writePos - b.readPos = n + (b.writePos - (b.readPos + n)) := by omega
  rw [Buffer.unread, size, Memory.bytes_add]
  rfl

theorem Open.clear (open_ : b.Open) : b.clear.Spare := ⟨rfl, rfl, open_.len_pos⟩

end Buffer

namespace Ring

variable {bio : NodeBio} {front spare : List Nat} {w : Nat} {a n r : Nat} {b : Buffer}

theorem put_front (ring : Ring bio (a :: front) w spare)
    (there : bio.heap a = some b) (b' : Buffer) (next : b'.next = b.next) (full : b'.Full) :
    Ring (bio.put a b') (a :: front) w spare := by
  obtain ⟨ne, outside⟩ := ring.notMem_of_front mem_cons_self
  have distinct : a ∉ front := fun member => (nodup_cons.mp ring.nodup).1 (mem_append_left _ member)
  have rest : All Buffer.Full bio.heap front :=
    fun c member => ring.full c (mem_cons_of_mem _ member)
  refine ⟨ring.readHead, ring.writeHead, ring.chain.update there next, ring.nodup, ring.allocated,
    ?_, ring.open_.update (by simpa using ne), ring.spare.update outside⟩
  exact (All.single (update_self _ _ _) full).append (rest.update distinct)

theorem leave (ring : Ring bio (a :: front) w spare) (there : bio.heap a = some b) :
    Ring { bio.put a b.clear with readHead := some b.next } front w (spare ++ [a]) := by
  obtain ⟨ne, outside⟩ := ring.notMem_of_front mem_cons_self
  have distinct := (nodup_cons.mp ring.nodup).1
  have full := ring.full.at mem_cons_self there
  have rest : All Buffer.Full bio.heap front :=
    fun c member => ring.full c (mem_cons_of_mem _ member)
  have next : b.next = front.headD w := by
    obtain ⟨-, cell, there'', behind⟩ := ring.chain
    cases there.symm.trans there''
    rw [behind.start_eq]
    cases front <;> rfl
  have at_a : (bio.put a b.clear).heap a = some b.clear := update_self _ _ _
  have split : front ++ w :: (spare ++ [a]) = front ++ w :: spare ++ [a] := by simp
  refine ⟨congrArg some next, ring.writeHead, ?_, ?_, ?_, ?_, ?_, ?_⟩
  · have chain : Chain Buffer.next (bio.put a b.clear).heap a (a :: (front ++ w :: spare)) a :=
      ring.chain.update there rfl
    rw [split, ← next]
    have turned := chain.turn at_a
    exact turned
  · rw [split, nodup_append_comm]
    exact ring.nodup
  · intro c member
    rw [split] at member
    apply ring.allocated c
    rcases mem_append.mp member with before | here
    · exact mem_cons_of_mem _ before
    obtain rfl := mem_singleton.mp here
    exact mem_cons_self
  · exact rest.update fun member => distinct (mem_append_left _ member)
  · exact ring.open_.update (by simpa using ne)
  · exact (ring.spare.update outside).append (All.single at_a full.open.clear)

theorem put_put (bio : NodeBio) (a : Nat) (b b' : Buffer) :
    (bio.put a b).put a b' = bio.put a b' := by
  simp [NodeBio.put]

theorem put_self (bio : NodeBio) (a : Nat) (b : Buffer) : (bio.put a b).heap a = some b :=
  update_self _ _ _

theorem moveReadHead_met {fuel : Nat} (readHead : bio.readHead = some a)
    (some_read : b.readPos ≠ 0) (met : b.readPos = b.writePos) :
    NodeBio.moveReadHead (fuel + 1) (bio.put a b) = if some a ≠ bio.writeHead then
        NodeBio.moveReadHead fuel { bio.put a b.clear with readHead := some b.next }
      else NodeBio.moveReadHead fuel (bio.put a b.clear) := by
  have at_a : (bio.put a b).heap a = some b := update_self _ _ _
  have here : (bio.put a b).readHead = some a := readHead
  rw [NodeBio.moveReadHead, here]
  simp only [at_a, bind_eq_bind, bind_some, if_pos (And.intro some_read met)]
  have twice : (bio.put a b).put a { b with readPos := 0, writePos := 0 } = bio.put a b.clear :=
    put_put bio a b b.clear
  rw [twice]
  rfl

theorem skip_write (ring : Ring bio [] w spare) (there : bio.heap w = some b)
    (some_read : 0 < n) (le : n ≤ b.writePos - b.readPos) :
    ∃ bio', (bio.put w (b.skip n)).tryMoveReadHead = some bio' ∧ Ring bio' [] w spare ∧
      contents bio.heap [w] = b.data.bytes b.readPos n ++ contents bio'.heap [w] ∧
      bio'.length = bio.length := by
  have open_ := ring.open_of_write there
  have write_le := open_.write_le
  rw [contents_single there, Buffer.unread_skip le]
  by_cases met : b.readPos + n = b.writePos
  · -- the positions have met, and are reset
    have empty : (b.skip n).unread = [] := by simp [Buffer.unread, Buffer.skip, met]
    have spare' : (b.skip n).clear.Spare := ⟨rfl, rfl, open_.len_pos⟩
    have reset := ring.put_write there (b.skip n).clear rfl spare'.open
    have readHead : bio.readHead = some w := ring.readHead
    have nonzero : (b.skip n).readPos ≠ 0 := Nat.ne_of_gt (Nat.lt_add_left _ some_read)
    refine ⟨bio.put w (b.skip n).clear, ?_, reset, ?_, rfl⟩
    · simpa [NodeBio.tryMoveReadHead, moveReadHead_met readHead nonzero met, ring.writeHead,
        not_not.mpr rfl] using reset.moveReadHead _
    · rw [empty, contents_single (put_self _ _ _), spare'.unread]
  have open' : (b.skip n).Open := by
    refine ⟨?_, write_le, open_.len_pos, fun eq => absurd eq met⟩
    simp only [Buffer.skip]
    omega
  have rest := ring.put_write there (b.skip n) rfl open'
  refine ⟨bio.put w (b.skip n), rest.moveReadHead _, rest, ?_, rfl⟩
  rw [contents_single (put_self _ _ _)]

theorem skip_front (ring : Ring bio (a :: front) w spare)
    (there : bio.heap a = some b) (some_read : 0 < n) (le : n ≤ b.writePos - b.readPos) :
    ∃ bio' front' spare', (bio.put a (b.skip n)).tryMoveReadHead = some bio' ∧
      Ring bio' front' w spare' ∧
      contents bio.heap (a :: front ++ [w]) =
        b.data.bytes b.readPos n ++ contents bio'.heap (front' ++ [w]) ∧
      bio'.length = bio.length := by
  have full := ring.full.at mem_cons_self there
  have outside : a ∉ front ++ [w] := by
    intro member
    have whole : front ++ w :: spare = front ++ [w] ++ spare := by simp
    have distinct : a ∉ front ++ w :: spare := (nodup_cons.mp ring.nodup).1
    rw [whole] at distinct
    exact distinct (mem_append_left _ member)
  rw [cons_append, contents_cons there, Buffer.unread_skip le]
  by_cases met : b.readPos + n = b.writePos
  · -- the read head goes on
    have empty : (b.skip n).unread = [] := by simp [Buffer.unread, Buffer.skip, met]
    have left := ring.leave there
    refine ⟨_, front, spare ++ [a], ?_, left, ?_, rfl⟩
    · have other : some a ≠ bio.writeHead := by
        rw [ring.writeHead]
        intro same
        exact (ring.notMem_of_front mem_cons_self).1 (some.inj same)
      have readHead : bio.readHead = some a := ring.readHead
      have nonzero : (b.skip n).readPos ≠ 0 := Nat.ne_of_gt (Nat.lt_add_left _ some_read)
      rw [NodeBio.tryMoveReadHead, moveReadHead_met readHead nonzero met, if_pos other]
      exact left.moveReadHead _
    rw [empty, append_nil]
    exact congrArg _ (contents_update outside).symm
  have full' : (b.skip n).Full := by
    refine ⟨?_, full.full⟩
    simp only [Buffer.skip]
    omega
  have rest := ring.put_front there (b.skip n) rfl full'
  refine ⟨bio.put a (b.skip n), a :: front, spare, rest.moveReadHead _, rest, ?_, rfl⟩
  rw [cons_append, contents_cons (put_self _ _ _), append_assoc]
  exact congrArg _ (congrArg _ (contents_update outside).symm)

theorem skip (ring : Ring bio front w spare)
    (there : bio.heap (front.headD w) = some b) (some_read : 0 < n)
    (le : n ≤ b.writePos - b.readPos) :
    ∃ bio' front' spare', (bio.put (front.headD w) (b.skip n)).tryMoveReadHead = some bio' ∧
      Ring bio' front' w spare' ∧
      contents bio.heap (front ++ [w]) =
        b.data.bytes b.readPos n ++ contents bio'.heap (front' ++ [w]) ∧
      bio'.length = bio.length := by
  cases front with
  | nil =>
    obtain ⟨bio', moved, ring', bytes, length⟩ := ring.skip_write there some_read le
    exact ⟨bio', [], spare, moved, ring', bytes, length⟩
  | cons => exact ring.skip_front there some_read le

theorem some_unread (ring : Ring bio front w spare)
    (some_left : contents bio.heap (front ++ [w]) ≠ [])
    (there : bio.heap (front.headD w) = some b) : b.readPos < b.writePos := by
  cases front with
  | nil =>
    have open_ := ring.open_of_write there
    rw [nil_append, contents_single (a := w) there] at some_left
    have size := length_pos_iff.mpr some_left
    rw [Buffer.length_unread] at size
    omega
  | cons =>
    have full := ring.full.at mem_cons_self there
    exact full.some_unread

theorem readLoop (expected fuel : Nat) (ring : Ring bio front w spare) {bytesRead left : Nat}
    (copied : List UInt8)
    (wanted : min left (contents bio.heap (front ++ [w])).length = expected - bytesRead)
    (le : bytesRead ≤ expected) (enough : expected - bytesRead < fuel) :
    ∃ bio' front' w' spare', NodeBio.readLoop expected fuel bio bytesRead left copied =
        some (bio', expected,
          copied ++ (contents bio.heap (front ++ [w])).take (expected - bytesRead)) ∧
      Ring bio' front' w' spare' ∧
      contents bio'.heap (front' ++ [w']) =
        (contents bio.heap (front ++ [w])).drop (expected - bytesRead) ∧
      bio'.length = bio.length := by
  induction fuel generalizing bio front spare bytesRead left copied with
  | zero => omega
  | succ fuel ih =>
    rw [NodeBio.readLoop]
    by_cases more : bytesRead < expected
    · obtain ⟨b, there, open_⟩ := ring.readBuffer
      have some_left : contents bio.heap (front ++ [w]) ≠ [] := by grind
      have unread := ring.some_unread some_left there
      rw [if_pos more, ring.readHead]
      simp only [there, bind_eq_bind, bind_some, if_pos open_.read_le]
      generalize size : min (b.writePos - b.readPos) left = n
      have some_read : 0 < n := by omega
      have inside : n ≤ b.writePos - b.readPos := by omega
      obtain ⟨bio₁, front₁, spare₁, moved, ring₁, bytes₁, length₁⟩ :=
        ring.skip there some_read inside
      have count := congrArg List.length bytes₁
      rw [length_append, Memory.length_bytes] at count
      have wanted₁ : min (left - n) (contents bio₁.heap (front₁ ++ [w])).length =
          expected - (bytesRead + n) := by omega
      obtain ⟨bio', front', w', spare', run, ring', bytes', length'⟩ :=
        ih ring₁ (copied ++ b.data.bytes b.readPos n) wanted₁ (by omega) (by omega)
      -- the bytes of this buffer, and then those of the rest
      have split : expected - bytesRead =
          (b.data.bytes b.readPos n).length + (expected - (bytesRead + n)) := by grind
      refine ⟨bio', front', w', spare', ?_, ring', ?_, ?_⟩
      · rw [Buffer.skip] at moved
        rw [moved, bind_some, run, bytes₁, split, take_length_add_append, append_assoc]
      · rw [bytes', bytes₁, split, drop_length_add_append]
      · rw [length', length₁]
    have done : expected - bytesRead = 0 := by omega
    have here : bytesRead = expected := by omega
    refine ⟨bio, front, w, spare, ?_, ring, ?_, rfl⟩
    · simp [here]
    · simp [done]

/-! ## Spare buffers -/

theorem freeLoop (fuel : Nat) {cur : Nat} {addresses : List Nat} (readHead : bio.readHead = some r)
    (chain : Chain Buffer.next bio.heap cur addresses r) (distinct : addresses.Nodup)
    (empty : All Buffer.Spare bio.heap addresses) (not_read : r ∉ addresses)
    (not_write : ∀ a ∈ addresses, some a ≠ bio.writeHead) (enough : addresses.length < fuel) :
    ∃ bio', NodeBio.freeLoop fuel bio cur = some (bio', r) ∧ bio'.readHead = bio.readHead ∧
      bio'.writeHead = bio.writeHead ∧ bio'.fresh = bio.fresh ∧ bio'.length = bio.length ∧
      ∀ a ∉ addresses, bio'.heap a = bio.heap a := by
  induction fuel generalizing bio cur addresses with
  | zero => omega
  | succ fuel ih =>
    rw [NodeBio.freeLoop]
    cases addresses with
    | nil =>
      have here : cur = r := chain
      rw [here, readHead, if_neg (not_not.mpr rfl)]
      exact ⟨bio, rfl, readHead, rfl, rfl, rfl, fun a _ => rfl⟩
    | cons a addresses =>
      obtain ⟨rfl, b, there, rest⟩ := chain
      have spare' := empty.at mem_cons_self there
      obtain ⟨outside, distinct'⟩ := nodup_cons.mp distinct
      have other : some cur ≠ bio.readHead := by grind [readHead]
      have equal : b.writePos = b.readPos := by rw [spare'.write, spare'.read]
      rw [if_pos other, if_pos (not_write cur mem_cons_self)]
      simp only [there, bind_eq_bind, bind_some, if_pos equal]
      have empty' : All Buffer.Spare bio.heap addresses :=
        fun c member => empty c (mem_cons_of_mem _ member)
      have deleted : ({ bio with heap := Function.update bio.heap cur none } : NodeBio).readHead =
          some r := readHead
      obtain ⟨bio', run, read', write', fresh', length', heap'⟩ :=
        ih deleted (rest.update_of_notMem outside) distinct' (empty'.update outside)
          (fun member => not_read (mem_cons_of_mem _ member))
          (fun c member => not_write c (mem_cons_of_mem _ member))
          (Nat.lt_of_succ_lt_succ enough)
      refine ⟨bio', run, read', write', fresh', length', ?_⟩
      intro c outside'
      have ne : c ≠ cur := by
        rintro rfl
        exact outside' mem_cons_self
      rw [heap' c fun member => outside' (mem_cons_of_mem _ member)]
      exact update_of_ne ne _ _

theorem length_le (ring : Ring bio front w spare) : (front ++ w :: spare).length ≤ bio.fresh := by
  have within : front ++ w :: spare ⊆ List.range bio.fresh :=
    fun a member => mem_range.mpr (ring.allocated a member)
  have le := (ring.nodup.subperm within).length_le
  rwa [length_range] at le

theorem keep_first {e : Nat} {rest : List Nat} (ring : Ring bio front w (e :: rest))
    {bio' : NodeBio} {c : Buffer} (at_e : bio.heap e = some c)
    (read : bio'.readHead = bio.readHead) (write : bio'.writeHead = bio.writeHead)
    (fresh : bio'.fresh = bio.fresh) (heap : ∀ a ∉ rest, bio'.heap a = bio.heap a) :
    Ring (bio'.put e { c with next := front.headD w }) front w [e] ∧
      contents (bio'.put e { c with next := front.headD w }).heap (front ++ [w]) =
        contents bio.heap (front ++ [w]) := by
  have distinct := ring.nodup
  have split : front ++ w :: e :: rest = front ++ [w] ++ [e] ++ rest := by simp
  rw [split, nodup_append] at distinct
  obtain ⟨first, -, apart⟩ := distinct
  obtain ⟨-, -, apart'⟩ := nodup_append.mp first
  have before : e ∉ front ++ [w] := fun member => apart' e member e (by simp) rfl
  -- the front and the write head are as they were
  have same : ∀ a ∈ front ++ [w], (bio'.put e { c with next := front.headD w }).heap a =
      bio.heap a := by
    intro a member
    have outside : a ∉ rest := fun behind => apart a (mem_append_left _ member) a behind rfl
    have ne : a ≠ e := by
      rintro rfl
      exact before member
    rw [← heap a outside]
    exact update_of_ne ne _ _
  obtain ⟨c', at_e', spare'⟩ := ring.spare e mem_cons_self
  obtain rfl := some.inj (at_e.symm.trans at_e')
  have chain := ring.chain
  have split' : front ++ w :: e :: rest = front ++ [w] ++ (e :: rest) := by simp
  rw [split'] at chain
  obtain ⟨mid, first', here, -⟩ := chain_append.mp chain
  have kept : front ++ w :: [e] = front ++ [w] ++ [e] := by simp
  refine ⟨⟨read.trans ring.readHead, write.trans ring.writeHead, ?_, ?_, ?_, ?_, ?_, ?_⟩, ?_⟩
  · rw [kept, chain_append]
    refine ⟨mid, first'.congr ?_, here, _, put_self _ _ _, rfl⟩
    intro a member
    rw [same a member]
  · rw [kept]
    exact first
  · intro a member
    rw [kept] at member
    have old := ring.allocated a (split ▸ mem_append_left _ member)
    exact fresh.symm ▸ old
  · intro a member
    obtain ⟨b, there, full⟩ := ring.full a member
    exact ⟨b, (same a (mem_append_left _ member)).trans there, full⟩
  · intro a member
    obtain ⟨b, there, open_⟩ := ring.open_ a member
    exact ⟨b, (same a (mem_append_right _ member)).trans there, open_⟩
  · exact All.single (put_self _ _ _) ⟨spare'.read, spare'.write, spare'.len_pos⟩
  apply contents_congr
  intro a member
  rw [same a member]

theorem freeEmpty (ring : Ring bio front w spare) :
    ∃ bio' spare', bio.freeEmpty = some bio' ∧ Ring bio' front w spare' ∧
      contents bio'.heap (front ++ [w]) = contents bio.heap (front ++ [w]) ∧
      bio'.length = bio.length := by
  obtain ⟨b, there, -⟩ := ring.writeBuffer
  have next := ring.next_eq there
  have not_write := ring.write_notMem_spare
  have not_read := ring.head_notMem_spare
  rw [NodeBio.freeEmpty, ring.writeHead]
  simp only [there, next, ring.readHead, bind_eq_bind, bind_some]
  cases spare with
  | nil => exact ⟨bio, [], if_pos (.inr rfl), ring, rfl, rfl⟩
  | cons e rest =>
    obtain ⟨mid, -, -, b', there', -, c, at_e, behind⟩ := chain_append.mp ring.chain
    have other : ¬ (e = w ∨ some e = some (front.headD w)) := by grind
    rw [headD_cons, if_neg other]
    simp only [at_e, bind_some]
    cases rest with
    | nil =>
      have last : c.next = front.headD w := behind
      exact ⟨bio, [e], if_pos (.inr (congrArg some last)), ring, rfl, rfl⟩
    | cons e' rest =>
      have second : c.next = e' := behind.1
      have other' : ¬ (c.next = w ∨ some c.next = some (front.headD w)) := by grind
      have distinct := (nodup_cons.mp (nodup_append.mp ring.nodup).2.1).2
      obtain ⟨outside, distinct'⟩ := nodup_cons.mp distinct
      have count := ring.length_le
      simp only [length_append, length_cons] at count
      obtain ⟨bio', run, read', write', fresh', length', heap'⟩ :=
        Ring.freeLoop (bio.fresh + 1) ring.readHead behind distinct'
          (fun a member => ring.spare a (mem_cons_of_mem _ member))
          (fun member => not_read (mem_cons_of_mem _ member))
          (fun a member same => by
            rw [ring.writeHead] at same
            exact not_write (some.inj same ▸ mem_cons_of_mem _ member))
          (by simp only [length_cons]; omega)
      obtain ⟨ring', bytes'⟩ := ring.keep_first at_e read' write' fresh' heap'
      refine ⟨_, [e], ?_, ring', bytes', length'⟩
      rw [if_neg other', run]
      simp [heap' e outside, at_e]

/-- A read takes bytes from the front, as many as there are. -/
theorem read (ring : Ring bio front w spare) (out : Bool) (size : Nat)
    (length : bio.length = (contents bio.heap (front ++ [w])).length) :
    ∃ bio' front' w' spare', bio.read out size = some (bio', min size bio.length,
        if out then (contents bio.heap (front ++ [w])).take size else []) ∧
      Ring bio' front' w' spare' ∧
      contents bio'.heap (front' ++ [w']) = (contents bio.heap (front ++ [w])).drop size ∧
      bio'.length = bio.length - min size bio.length := by
  generalize bytes : contents bio.heap (front ++ [w]) = q at length
  have expected : (if bio.length > size then size else bio.length) = min size bio.length := by
    split <;> omega
  have wanted : min size (contents bio.heap (front ++ [w])).length = min size bio.length - 0 := by
    rw [bytes, length, Nat.sub_zero]
  obtain ⟨bio₁, front₁, w₁, spare₁, run, ring₁, bytes₁, length₁⟩ :=
    ring.readLoop (min size bio.length) (min size bio.length + 1) [] wanted (Nat.zero_le _)
      (Nat.lt_succ_self _)
  rw [Nat.sub_zero, bytes] at run bytes₁
  have take : q.take (min size bio.length) = q.take size := by grind
  have drop : q.drop (min size bio.length) = q.drop size := by grind
  obtain ⟨bio₂, spare₂, freed, ring₂, bytes₂, length₂⟩ :=
    (ring₁.with_length (bio₁.length - min size bio.length)).freeEmpty
  refine ⟨bio₂, front₁, w₁, spare₂, ?_, ring₂, ?_, ?_⟩
  · rw [NodeBio.read, expected, run]
    simp only [bind_eq_bind, bind_some, if_true, freed, nil_append, take]
  · rw [bytes₂, ← drop]
    exact bytes₁
  · rw [length₂, length₁]

/-! ## `Reset` -/

theorem resetLoop (fuel : Nat) {busy idle : List Nat} (readHead : bio.readHead = some r)
    (chain : Chain Buffer.next bio.heap r (busy ++ idle) r) (distinct : (busy ++ idle).Nodup)
    (some_buffer : busy ++ idle ≠ []) (allocated : ∀ a ∈ busy ++ idle, a < bio.fresh)
    (used : All (fun b => b.readPos < b.writePos ∧ 0 < b.len) bio.heap busy)
    (empty : All Buffer.Spare bio.heap idle) (length : bio.length = (contents bio.heap busy).length)
    (enough : busy.length < fuel) :
    ∃ bio' e rest, NodeBio.resetLoop fuel bio = some bio' ∧ bio'.length = 0 ∧
      bio'.readHead = some e ∧ Ring { bio' with writeHead := some e } [] e rest ∧
      All Buffer.Spare bio'.heap [e] := by
  induction fuel generalizing bio r busy idle with
  | zero => omega
  | succ fuel ih =>
    rw [NodeBio.resetLoop, readHead]
    cases busy with
    | nil =>
      obtain ⟨e, rest, rfl⟩ := exists_cons_of_ne_nil some_buffer
      obtain ⟨rfl, b, there, behind⟩ := chain
      have spare' := empty.at mem_cons_self there
      have equal : ¬ b.readPos ≠ b.writePos := by
        rw [spare'.read, spare'.write]
        exact not_not.mpr rfl
      refine ⟨bio, r, rest, ?_, length, readHead, ?_, All.single there spare'⟩
      · simp only [there, bind_eq_bind, bind_some, if_neg equal]
      exact ⟨readHead, rfl, ⟨rfl, b, there, behind⟩, distinct, allocated,
        nofun, All.single there spare'.open,
        fun a member => empty a (mem_cons_of_mem _ member)⟩
    | cons a busy =>
      obtain ⟨b, there, unread, len_pos⟩ := used a mem_cons_self
      have start_ : r = a := chain.1
      subst start_
      have distinct' := nodup_cons.mp distinct
      have outside : r ∉ busy := fun member => distinct'.1 (mem_append_left _ member)
      have outside' : r ∉ idle := fun member => distinct'.1 (mem_append_right _ member)
      have ne : b.readPos ≠ b.writePos := by omega
      simp only [there, bind_eq_bind, bind_some, if_pos ne, if_pos unread]
      have at_r := put_self bio r b.clear
      have turned : Chain Buffer.next (bio.put r b.clear).heap b.next (busy ++ (idle ++ [r]))
          b.next := by
        have updated : Chain Buffer.next (bio.put r b.clear).heap r (r :: (busy ++ idle)) r :=
          chain.update there rfl
        rw [← append_assoc]
        have turned := updated.turn at_r
        exact turned
      have left : bio.length - (b.writePos - b.readPos) =
          (contents (bio.put r b.clear).heap busy).length := by
        have same : contents (bio.put r b.clear).heap busy = contents bio.heap busy :=
          contents_update outside
        rw [length, contents_cons there, length_append, Buffer.length_unread, same]
        omega
      have rest : All (fun b => b.readPos < b.writePos ∧ 0 < b.len) bio.heap busy :=
        fun c member => used c (mem_cons_of_mem _ member)
      let bio₁ : NodeBio :=
        { bio.put r b.clear with
          length := bio.length - (b.writePos - b.readPos)
          readHead := some b.next }
      have readHead₁ : bio₁.readHead = some b.next := rfl
      have members : ∀ c, c ∈ busy ++ (idle ++ [r]) → c ∈ r :: busy ++ idle := by
        intro c member
        simp only [mem_append, cons_append, mem_cons] at *
        tauto
      have distinct₁ : (busy ++ (idle ++ [r])).Nodup := by
        rw [← append_assoc, nodup_append_comm]
        exact distinct
      exact ih readHead₁ turned distinct₁ (by simp) (fun c member => allocated c (members c member))
        (rest.update outside)
        ((empty.update outside').append (All.single at_r ⟨rfl, rfl, len_pos⟩)) left
        (Nat.lt_of_succ_lt_succ enough)

theorem reset (ring : Ring bio front w spare)
    (length : bio.length = (contents bio.heap (front ++ [w])).length) :
    ∃ bio' w' spare', bio.reset = some bio' ∧ Ring bio' [] w' spare' ∧
      contents bio'.heap [w'] = [] ∧ bio'.length = 0 := by
  obtain ⟨b, there, open_⟩ := ring.writeBuffer
  have count := ring.length_le
  simp only [length_append, length_cons] at count
  have used : All (fun b => b.readPos < b.writePos ∧ 0 < b.len) bio.heap front := by
    intro a member
    obtain ⟨b', there', full⟩ := ring.full a member
    exact ⟨b', there', full.some_unread, full.open.len_pos⟩
  -- the write head is emptied too, unless it is empty
  obtain ⟨bio', e, rest, run, length', readHead, ring', empty⟩ :
      ∃ bio' e rest, NodeBio.resetLoop (bio.fresh + 1) bio = some bio' ∧ bio'.length = 0 ∧
        bio'.readHead = some e ∧ Ring { bio' with writeHead := some e } [] e rest ∧
        All Buffer.Spare bio'.heap [e] := by
    by_cases unread : b.readPos < b.writePos
    · have split : front ++ w :: spare = (front ++ [w]) ++ spare := by simp
      have chain := ring.chain
      have distinct := ring.nodup
      have allocated := ring.allocated
      rw [split] at chain distinct allocated
      exact Ring.resetLoop (bio.fresh + 1) ring.readHead chain distinct (by simp) allocated
        (used.append (All.single there ⟨unread, open_.len_pos⟩)) ring.spare length
        (by rw [length_append, length_singleton]; omega)
    have met : b.readPos = b.writePos := Nat.le_antisymm open_.read_le (Nat.le_of_not_lt unread)
    have zero := open_.met met
    have spare' : b.Spare := ⟨zero, met ▸ zero, open_.len_pos⟩
    have same : contents bio.heap (front ++ [w]) = contents bio.heap front := by
      simp [contents_append, contents_single there, spare'.unread]
    exact Ring.resetLoop (bio.fresh + 1) ring.readHead ring.chain ring.nodup (by simp)
      ring.allocated used ((All.single there spare').append ring.spare) (same ▸ length) (by omega)
  obtain ⟨c, at_e, spare'⟩ := empty e (mem_singleton_self _)
  refine ⟨{ bio' with writeHead := some e }, e, rest, ?_, ring', ?_, length'⟩
  · simp [NodeBio.reset, ring.readHead, run, length', readHead]
  · rw [contents_single at_e, spare'.unread]

end Ring

end IoJs.Crypto
