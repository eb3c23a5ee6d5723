import IoJs.Http.Parser

/-!
# `StringPtr`

What `http_parser` reports lies in the buffer that is being parsed. A `StringPtr` points to it
for as long as it is in one piece and copies it to the heap when it is not, or when the buffer is
about to go.
-/

namespace IoJs.Http

open List Option

/-- The buffer that is being parsed: its address and its contents. -/
structure Buffer where
  data : Nat
  bytes : Bytes
  deriving DecidableEq

/-- Some bytes at an address, if they are in the buffer. -/
def Buffer.read (b : Buffer) (address size : Nat) : Option Bytes :=
  if size = 0 then some []
  else if b.data ≤ address ∧ address + size ≤ b.data + b.bytes.length then
    some ((b.bytes.drop (address - b.data)).take size)
  else none

/-- `str_`; what is on the heap belongs to the `StringPtr`. -/
inductive Target where
  | nullptr
  | buffer (address : Nat)
  | heap (bytes : Bytes)
  deriving DecidableEq

structure StringPtr where
  str : Target
  size : Nat

namespace StringPtr

def reset : StringPtr := { str := .nullptr, size := 0 }

/-- What is copied from `str_`; there is no result if it is not there to be read. -/
def bytes (b : Buffer) (s : StringPtr) : Option Bytes :=
  match s.str with
  | .nullptr => if s.size = 0 then some [] else none
  | .buffer address => b.read address s.size
  | .heap bytes => if s.size ≤ bytes.length then some (bytes.take s.size) else none

def save (b : Buffer) (s : StringPtr) : Option StringPtr :=
  match s.str with
  | .heap _ => some s
  | _ => if 0 < s.size then (s.bytes b).map fun copy => { s with str := .heap copy } else some s

/-- Non-consecutive input: a copy on the heap -/
def copy (b : Buffer) (str size : Nat) (s : StringPtr) : Option StringPtr := do
  let old ← s.bytes b
  let new ← b.read str size
  some { str := .heap (old ++ new), size := s.size + size }

def update (b : Buffer) (str size : Nat) (s : StringPtr) : Option StringPtr :=
  match s.str with
  | .nullptr => some { str := .buffer str, size := s.size + size }
  | .buffer address =>
    if address + s.size = str then some { s with size := s.size + size } else s.copy b str size
  | .heap _ => s.copy b str size

def toString (b : Buffer) (s : StringPtr) : Option Bytes :=
  if s.str = .nullptr then some [] else s.bytes b

end StringPtr

/-! ## Reading -/

section Read

variable {b : Buffer} {address size : Nat} {piece : Bytes}

@[simp]
theorem Buffer.read_zero (b : Buffer) (address : Nat) : b.read address 0 = some [] := rfl

theorem Buffer.read_length (read : b.read address size = some piece) : piece.length = size := by
  rw [Buffer.read] at read
  split_ifs at read with empty inside
  · cases read
    exact empty.symm
  cases read
  rw [length_take, length_drop]
  omega

theorem Buffer.read_append {size' : Nat} {piece' : Bytes} (left : b.read address size = some piece)
    (right : b.read (address + size) size' = some piece') :
    b.read address (size + size') = some (piece ++ piece') := by
  by_cases empty : size = 0
  · subst empty
    rw [Buffer.read_zero, Option.some.injEq] at left
    subst left
    simpa using right
  by_cases empty' : size' = 0
  · subst empty'
    rw [Buffer.read_zero, Option.some.injEq] at right
    subst right
    simpa using left
  rw [Buffer.read, if_neg empty] at left
  rw [Buffer.read, if_neg empty'] at right
  split_ifs at left with inside
  split_ifs at right with inside'
  cases left
  cases right
  have start : address + size - b.data = (address - b.data) + size := by omega
  rw [Buffer.read, if_neg (by omega), if_pos (by omega), start, ← drop_drop, take_add]

end Read

/-! ## What a `StringPtr` stands for -/

namespace StringPtr

variable {b : Buffer} {s : StringPtr} {held : Bytes}

theorem bytes_heap {copied : Bytes} {size : Nat} (whole : copied.length = size) (b : Buffer) :
    bytes b { str := .heap copied, size } = some copied := by
  subst whole
  simp [bytes]

section

variable (holds : s.bytes b = some held)
include holds

theorem bytes_length : held.length = s.size := by
  obtain ⟨str, size⟩ := s
  cases str with
  | nullptr =>
    rw [bytes] at holds
    split_ifs at holds with empty
    cases holds
    exact empty.symm
  | buffer => exact Buffer.read_length holds
  | heap =>
    simp only [bytes] at holds
    split_ifs at holds with enough
    cases holds
    rw [length_take]
    exact Nat.min_eq_left enough

theorem toString_of_bytes : s.toString b = some held := by
  rw [toString]
  split_ifs with null
  · rw [bytes, null] at holds
    split_ifs at holds with empty
    exact holds
  · exact holds

theorem save_bytes : ∃ s', s.save b = some s' ∧ ∀ b', s'.bytes b' = some held := by
  have size := bytes_length holds
  obtain ⟨str, n⟩ := s
  cases str with
  | nullptr =>
    rw [bytes] at holds
    split_ifs at holds with empty
    have none_ : ¬ 0 < n := Nat.not_lt.mpr (Nat.le_of_eq empty)
    refine ⟨_, if_neg none_, fun b' => ?_⟩
    rw [bytes, if_pos empty, holds]
  | buffer =>
    by_cases some_ : 0 < n
    · refine ⟨{ str := .heap held, size := n }, ?_, bytes_heap size⟩
      rw [save, if_pos some_, holds]
      rfl
    obtain rfl : n = 0 := by omega
    exact ⟨_, rfl, fun _ => holds⟩
  | heap => exact ⟨_, rfl, fun _ => holds⟩

end

variable {str size : Nat} {piece : Bytes}

theorem copy_bytes (holds : s.bytes b = some held) (read : b.read str size = some piece) :
    ∃ s', s.copy b str size = some s' ∧ s'.bytes b = some (held ++ piece) := by
  refine ⟨{ str := .heap (held ++ piece), size := s.size + size }, ?_, ?_⟩
  · rw [copy, holds, read]
    rfl
  apply bytes_heap
  rw [length_append, bytes_length holds, Buffer.read_length read]

theorem update_bytes (holds : s.bytes b = some held) (read : b.read str size = some piece) :
    ∃ s', s.update b str size = some s' ∧ s'.bytes b = some (held ++ piece) := by
  obtain ⟨target, n⟩ := s
  cases target with
  | nullptr =>
    rw [bytes] at holds
    split_ifs at holds with empty
    cases holds
    refine ⟨_, rfl, ?_⟩
    rw [bytes]
    dsimp only at empty ⊢
    rw [empty, Nat.zero_add, nil_append, read]
  | buffer address =>
    by_cases next : address + n = str
    · subst next
      refine ⟨_, if_pos rfl, ?_⟩
      exact Buffer.read_append holds read
    obtain ⟨s', copied, holds'⟩ := copy_bytes holds read
    exact ⟨s', (if_neg next).trans copied, holds'⟩
  | heap => exact copy_bytes holds read

end StringPtr

/-! ## Who owns the heap -/

/-- `str_` -/
inductive Pointer where
  | nullptr
  /-- into a buffer that is parsed, or has been -/
  | input (address : Nat)
  /-- to a block that `new` has given -/
  | block (id : Nat)
  deriving DecidableEq

/-- `StringPtr` as it is, with `on_heap_`, and the blocks of the heap that have not been deleted -/
structure RawStringPtr where
  str : Pointer
  onHeap : Bool
  size : Nat
  heap : Nat → Option Bytes
  fresh : Nat

namespace RawStringPtr

/-- The constructor -/
def new : RawStringPtr :=
  { str := .nullptr, onHeap := false, size := 0, heap := fun _ => none, fresh := 0 }

/-- `memcpy(s, str_, size_)` -/
def read (b : Buffer) (r : RawStringPtr) : Option Bytes :=
  match r.str with
  | .nullptr => if r.size = 0 then some [] else none
  | .input address => b.read address r.size
  | .block id =>
    (r.heap id).bind fun bytes => if r.size ≤ bytes.length then some (bytes.take r.size) else none

/-- `delete[] str_`, of a block that has not been deleted -/
def delete (r : RawStringPtr) : Option RawStringPtr :=
  match r.str with
  | .block id =>
    if (r.heap id).isSome then some { r with heap := Function.update r.heap id none } else none
  | _ => none

/-- `str_ = s`, of a new block -/
def move (bytes : Bytes) (r : RawStringPtr) : RawStringPtr :=
  { r with
    str := .block r.fresh
    onHeap := true
    heap := Function.update r.heap r.fresh (some bytes)
    fresh := r.fresh + 1 }

def save (b : Buffer) (r : RawStringPtr) : Option RawStringPtr :=
  if r.onHeap = false ∧ 0 < r.size then (r.read b).map r.move else some r

def reset (r : RawStringPtr) : Option RawStringPtr := do
  let r ← if r.onHeap then r.delete else some r
  some { r with onHeap := false, str := .nullptr, size := 0 }

/-- `str_ + size_ == str`, which is not evaluated on the heap -/
def endsAt (str : Nat) (r : RawStringPtr) : Bool :=
  match r.str with
  | .input address => address + r.size = str
  | _ => false

def update (b : Buffer) (str size : Nat) (r : RawStringPtr) : Option RawStringPtr :=
  if r.str = .nullptr then some { r with str := .input str, size := r.size + size }
  else if r.onHeap ∨ ¬r.endsAt str then do
    let old ← r.read b
    let new ← b.read str size
    let r' ← if r.onHeap then r.delete else some r
    some { r'.move (old ++ new) with size := r.size + size }
  else some { r with size := r.size + size }

/-- What is done with a `StringPtr` -/
inductive Event where
  | update (str size : Nat)
  | reset
  /-- the end of a buffer, and the next one -/
  | save (next : Buffer)

/-- The buffer that is parsed, and the `StringPtr` -/
def step (b : Buffer) (r : RawStringPtr) : Event → Option (Buffer × RawStringPtr)
  | .update str size => (r.update b str size).map (b, ·)
  | .reset => r.reset.map (b, ·)
  | .save next => (r.save b).map (next, ·)

def run : Buffer → RawStringPtr → List Event → Option (Buffer × RawStringPtr)
  | b, r, [] => some (b, r)
  | b, r, event :: events => (r.step b event).bind fun next => run next.1 next.2 events

/-- The pieces that have come since the last `Reset`, of buffers that hold them -/
def pieces : Buffer → Bytes → List Event → Option (Buffer × Bytes)
  | b, held, [] => some (b, held)
  | b, held, .update str size :: events =>
    (b.read str size).bind fun piece => pieces b (held ++ piece) events
  | b, _, .reset :: events => pieces b [] events
  | _, held, .save next :: events => pieces next held events

/-- It owns what it points to on the heap, and nothing else is there. -/
structure Owns (r : RawStringPtr) : Prop where
  onHeap : r.onHeap = true ↔ ∃ id, r.str = .block id
  blocks : ∀ id, (r.heap id).isSome = true ↔ r.str = .block id
  fresh : ∀ id, r.fresh ≤ id → r.heap id = none

/-- The string that it stands for -/
def stringPtr (r : RawStringPtr) : StringPtr :=
  { str :=
      match r.str with
      | .nullptr => .nullptr
      | .input address => .buffer address
      | .block id => .heap ((r.heap id).getD [])
    size := r.size }

/-- What it stands for, of the buffer that is parsed -/
structure Holds (b : Buffer) (held : Bytes) (r : RawStringPtr) : Prop where
  owns : Owns r
  value : r.stringPtr.bytes b = some held

variable {b : Buffer} {r : RawStringPtr} {held piece : Bytes} {str size : Nat}

theorem Owns.read (owns : Owns r) : r.read b = r.stringPtr.bytes b := by
  obtain ⟨target, onHeap, n, heap, fresh⟩ := r
  cases target with
  | nullptr => rfl
  | input => rfl
  | block id =>
    obtain ⟨copied, live⟩ := isSome_iff_exists.mp ((owns.blocks id).mpr rfl)
    simp only [RawStringPtr.read, stringPtr, StringPtr.bytes]
    dsimp only at live
    rw [live]
    rfl

theorem Owns.empty (owns : Owns r) (alone : ∀ id, r.str ≠ .block id) (id : Nat) :
    r.heap id = none := by
  rw [← not_isSome_iff_eq_none, owns.blocks id]
  exact alone id

theorem Owns.onHeap_eq_false (owns : Owns r) (alone : ∀ id, r.str ≠ .block id) :
    r.onHeap = false := by
  rw [Bool.eq_false_iff]
  intro onHeap
  obtain ⟨id, block⟩ := owns.onHeap.mp onHeap
  exact alone id block

theorem owns_of_empty (empty : ∀ id, r.heap id = none) (onHeap : r.onHeap = false)
    (alone : ∀ id, r.str ≠ .block id) : Owns r where
  onHeap := by simp [onHeap, alone]
  blocks id := by simp [empty id, alone]
  fresh id _ := empty id

theorem owns_move (empty : ∀ id, r.heap id = none) (bytes : Bytes) (n : Nat) :
    Owns { r.move bytes with size := n } where
  onHeap := by simp [move]
  blocks id := by
    by_cases same : id = r.fresh
    · simp [move, same]
    · simp [move, same, empty id, Ne.symm same]
  fresh id less := by
    simp only [move] at less ⊢
    rw [Function.update_of_ne (by omega), empty id]

theorem move_bytes (bytes : Bytes) (n : Nat) (whole : bytes.length = n) :
    ({ r.move bytes with size := n } : RawStringPtr).stringPtr.bytes b = some bytes := by
  subst whole
  simp [stringPtr, move, StringPtr.bytes]

theorem Owns.delete {id : Nat} (owns : Owns r) (block : r.str = .block id) :
    ∃ r', r.delete = some r' ∧ r'.fresh = r.fresh ∧ ∀ id, r'.heap id = none := by
  refine ⟨{ r with heap := Function.update r.heap id none }, ?_, rfl, fun id' => ?_⟩
  · rw [RawStringPtr.delete, block]
    exact if_pos ((owns.blocks id).mpr block)
  by_cases same : id' = id
  · subst same
    exact Function.update_self ..
  dsimp only
  rw [Function.update_of_ne same, ← not_isSome_iff_eq_none, owns.blocks id', block]
  exact fun other => same (Pointer.block.inj other).symm

theorem Holds.update (holds : Holds b held r) (read : b.read str size = some piece) :
    ∃ r', r.update b str size = some r' ∧ Holds b (held ++ piece) r' := by
  obtain ⟨owns, value⟩ := holds
  have length := StringPtr.bytes_length value
  have old : r.read b = some held := owns.read.trans value
  have whole : (held ++ piece).length = r.size + size := by
    rw [length_append, length, Buffer.read_length read]
    rfl
  cases target : r.str with
  | nullptr =>
    have alone : ∀ id, r.str ≠ .block id := by simp [target]
    obtain ⟨s', updated, bytes⟩ := StringPtr.update_bytes value read
    refine ⟨_, if_pos target, owns_of_empty (owns.empty alone) (owns.onHeap_eq_false alone)
      (by simp), ?_⟩
    rw [StringPtr.update, stringPtr, target] at updated
    cases updated
    exact bytes
  | input address =>
    have alone : ∀ id, r.str ≠ .block id := by simp [target]
    have flag := owns.onHeap_eq_false alone
    by_cases next : address + r.size = str
    · obtain ⟨s', updated, bytes⟩ := StringPtr.update_bytes value read
      refine ⟨{ r with size := r.size + size }, ?_, owns_of_empty (owns.empty alone) flag alone, ?_⟩
      · simp [RawStringPtr.update, target, flag, endsAt, next]
      rw [StringPtr.update, stringPtr, target] at updated
      dsimp only at updated
      rw [if_pos next] at updated
      cases updated
      rw [stringPtr]
      rw [target]
      exact bytes
    refine ⟨_, ?_, owns_move (owns.empty alone) (held ++ piece) (r.size + size),
      move_bytes _ _ whole⟩
    simp [RawStringPtr.update, target, flag, endsAt, next, old, read]
  | block id =>
    have flag : r.onHeap = true := owns.onHeap.mpr ⟨id, target⟩
    obtain ⟨r', deleted, -, empty⟩ := owns.delete target
    refine ⟨_, ?_, owns_move empty (held ++ piece) (r.size + size), move_bytes _ _ whole⟩
    simp [RawStringPtr.update, target, flag, old, read, deleted]

theorem Owns.reset (owns : Owns r) (b : Buffer) : ∃ r', r.reset = some r' ∧ Holds b [] r' := by
  by_cases flag : r.onHeap = true
  · obtain ⟨id, block⟩ := owns.onHeap.mp flag
    obtain ⟨r', deleted, -, empty⟩ := owns.delete block
    refine ⟨{ r' with onHeap := false, str := .nullptr, size := 0 }, ?_,
      owns_of_empty empty rfl (by simp), rfl⟩
    simp [RawStringPtr.reset, flag, deleted]
  have alone : ∀ id, r.str ≠ .block id := fun id block => flag (owns.onHeap.mpr ⟨id, block⟩)
  refine ⟨{ r with onHeap := false, str := .nullptr, size := 0 }, ?_,
    owns_of_empty (owns.empty alone) rfl (by simp), rfl⟩
  simp [RawStringPtr.reset, flag]

/-- No byte of a buffer is referred to. -/
def Released (r : RawStringPtr) : Prop := ∀ address, r.str = .input address → r.size = 0

/-- `Save` copies what refers to the buffer. -/
theorem Holds.save (holds : Holds b held r) (next : Buffer) :
    ∃ r', r.save b = some r' ∧ Holds next held r' ∧ Released r' := by
  obtain ⟨owns, value⟩ := holds
  have length := StringPtr.bytes_length value
  by_cases moved : r.onHeap = false ∧ 0 < r.size
  · have alone : ∀ id, r.str ≠ .block id := fun id block => by
      rw [owns.onHeap.mpr ⟨id, block⟩] at moved
      cases moved.1
    refine ⟨r.move held, ?_, ⟨owns_move (owns.empty alone) held r.size, ?_⟩, ?_⟩
    · rw [RawStringPtr.save, if_pos moved, owns.read, value]
      rfl
    · exact move_bytes held r.size length
    intro address input
    cases input
  obtain ⟨s', saved, bytes⟩ := StringPtr.save_bytes value
  refine ⟨r, if_neg moved, ⟨owns, ?_⟩, fun address input => ?_⟩
  · have same : r.stringPtr.save b = some r.stringPtr := by
      rw [StringPtr.save, stringPtr]
      cases target : r.str with
      | nullptr | input =>
        have flag := owns.onHeap_eq_false (by simp [target])
        exact if_neg fun more => moved ⟨flag, more⟩
      | block id => rfl
    obtain rfl := some.inj (same.symm.trans saved)
    exact bytes next
  have flag := owns.onHeap_eq_false (by simp [input])
  exact Nat.eq_zero_of_not_pos fun more => moved ⟨flag, more⟩

/-- Behind any events it stands for the bytes given, and behind `Save` it refers to no buffer. -/
theorem Holds.run {b' : Buffer} {held' : Bytes} {events : List Event} (holds : Holds b held r)
    (given : pieces b held events = some (b', held')) :
    ∃ r', RawStringPtr.run b r events = some (b', r') ∧ Holds b' held' r' ∧
      ∀ next, events.getLast? = some (.save next) → Released r' := by
  induction events generalizing b held r with
  | nil =>
    cases given
    exact ⟨r, rfl, holds, nofun⟩
  | cons event events ih =>
    -- what comes behind an event, and what it leaves if nothing does
    have onward : ∀ {b₁ held₁ r₁}, r.step b event = some (b₁, r₁) → Holds b₁ held₁ r₁ →
        ((∃ next, event = .save next) → Released r₁) → pieces b₁ held₁ events = some (b', held') →
          ∃ r', RawStringPtr.run b r (event :: events) = some (b', r') ∧ Holds b' held' r' ∧
            ∀ next, (event :: events).getLast? = some (.save next) → Released r' := by
      intro b₁ held₁ r₁ stepped holds₁ released given
      obtain ⟨r', ran, holds', last⟩ := ih holds₁ given
      refine ⟨r', ?_, holds', fun next final => ?_⟩
      · rw [RawStringPtr.run, stepped]
        exact ran
      by_cases none_ : events = []
      · subst none_
        obtain ⟨-, rfl⟩ := Prod.mk.inj (some.inj ran)
        exact released ⟨next, some.inj final⟩
      rw [List.getLast?_cons_of_ne_nil none_] at final
      exact last next final
    cases event with
    | update =>
      obtain ⟨piece, read, given⟩ := bind_eq_some_iff.mp given
      obtain ⟨r₁, updated, holds₁⟩ := holds.update read
      refine onward ?_ holds₁ (by simp) given
      rw [step, updated]
      rfl
    | reset =>
      obtain ⟨r₁, done, holds₁⟩ := holds.owns.reset b
      refine onward ?_ holds₁ (by simp) given
      rw [step, done]
      rfl
    | save next =>
      obtain ⟨r₁, saved, holds₁, released⟩ := holds.save next
      refine onward ?_ holds₁ (fun _ => released) given
      rw [step, saved]
      rfl

/-- **A string that is accumulated**: the pieces since the last `Reset`, and the heap holds nothing
but what `str_` points to. No operation fails, so no block is deleted twice, and nothing is read of
a buffer that is gone; behind `Save`, only an empty string may still point into one. -/
theorem run_accumulates (b b' : Buffer) (events : List Event) (held : Bytes)
    (given : pieces b [] events = some (b', held)) :
    ∃ r, run b new events = some (b', r) ∧ r.read b' = some held ∧ r.size = held.length ∧
      (r.onHeap = true ↔ ∃ id, r.str = .block id) ∧
      (∀ id, (r.heap id).isSome = true ↔ r.str = .block id) ∧
      ∀ next, events.getLast? = some (.save next) → ∀ address, r.str = .input address →
        r.size = 0 := by
  have begun : Holds b [] new := ⟨owns_of_empty (fun _ => rfl) rfl (by simp [new]), rfl⟩
  obtain ⟨r, ran, holds, released⟩ := begun.run given
  exact ⟨r, ran, holds.owns.read.trans holds.value, (StringPtr.bytes_length holds.value).symm,
    holds.owns.onHeap, holds.owns.blocks, released⟩

/-- A string in two buffers, the second of which is at the address of the first -/
theorem run_accumulates_two :
    ∃ r, run ⟨8, [1, 2, 3]⟩ new [.update 8 2, .save ⟨8, [4]⟩, .update 8 1] = some (⟨8, [4]⟩, r) ∧
      r.read ⟨8, [4]⟩ = some [1, 2, 4] ∧ r.size = 3 ∧ (r.onHeap = true ↔ ∃ id, r.str = .block id) ∧
        (∀ id, (r.heap id).isSome = true ↔ r.str = .block id) ∧
        ∀ next, (some (Event.update 8 1)) = some (.save next) →
          ∀ address, r.str = .input address → r.size = 0 :=
  run_accumulates _ _ [.update 8 2, .save ⟨8, [4]⟩, .update 8 1] [1, 2, 4] (by decide)

/-- An empty piece is not moved to the heap. -/
theorem not_run_accumulates : ¬∀ (b b' next : Buffer) (events : List Event) (r : RawStringPtr),
    run b new (events ++ [.save next]) = some (b', r) → ∀ address, r.str ≠ .input address := by
  intro all
  exact all ⟨8, [1]⟩ ⟨8, []⟩ ⟨8, []⟩ [.update 8 0] _ rfl 8 rfl

end RawStringPtr

end IoJs.Http
