import IoJs.Library.Runs
import Mathlib.Data.Nat.Bitwise

/-!
# The pool of small Buffers

A small Buffer is cut from a pool, which is given away from its start to its end. Whether a Buffer
is small depends on `Buffer.poolSize`, which anyone may assign; how much of the pool is left depends
on the value that it had when the pool was made. So the ranges of two Buffers never overlap.
-/

namespace IoJs.Buffer.Pool

open List

/-- A number as `Uint32Value` gives it, and as `>>>` takes it. -/
def uint32 (n : Nat) : Nat := n % 2 ^ 32

def kMaxLength : Nat := 0x3fffffff

/-- The `CHECK` that fails: one of `alloc` or one of `sliceOnto`. -/
inductive Abort where
  | alloc
  | sliceOnto
  deriving DecidableEq

/-- What a Buffer has of a pool. -/
structure Slice where
  pool : Nat
  start : Nat
  stop : Nat
  deriving DecidableEq

/-- Is a byte of the pool one of the range? -/
def Slice.Holds (slice : Slice) (i : Nat) : Prop := slice.start ≤ i ∧ i < slice.stop

structure State where
  -- `Buffer.poolSize`
  bufferPoolSize : Nat
  poolSize : Nat
  poolOffset : Nat
  -- the number of the pool
  allocPool : Nat
  -- how much memory each pool has
  pools : List Nat
  -- those of all Buffers that are cut from a pool, in the order in which they are made
  slices : List Slice
  deriving DecidableEq

namespace State

/-- After the first `createPool` -/
def initial : State :=
  { bufferPoolSize := 8 * 1024
    poolSize := 8 * 1024
    poolOffset := 0
    allocPool := 0
    pools := [8 * 1024]
    slices := [] }

/-- `smalloc.alloc`: how much memory there is. -/
def alloc (length : Nat) : Except Abort Nat :=
  if uint32 length ≤ kMaxLength then .ok (uint32 length) else .error .alloc

/-- `smalloc.sliceOnto`, of the pool -/
def sliceOnto (s : State) (start stop : Nat) : Except Abort Slice :=
  let sourceLen := s.pools.getD s.allocPool 0
  let start := uint32 start
  let stop := uint32 stop
  if (sourceLen ≠ 0 ∨ start = stop) ∧ stop ≤ sourceLen ∧ start ≤ stop then
    .ok { pool := s.allocPool, start, stop }
  else .error .sliceOnto

def createPool (s : State) : Except Abort State := do
  let size ← alloc s.bufferPoolSize
  .ok { s with
    poolSize := s.bufferPoolSize
    allocPool := s.pools.length
    pools := s.pools ++ [size]
    poolOffset := 0 }

/-- The pool has too little left. -/
def exhausted (s : State) (length : Nat) : Bool := (length : Int) > s.poolSize - s.poolOffset

/-- Ensure aligned slices; the offset is below 2³¹, where it is the same as a 32-bit integer. -/
def aligned (poolOffset : Nat) : Nat :=
  if poolOffset &&& 0x7 ≠ 0 then (poolOffset ||| 0x7) + 1 else poolOffset

/-- `palloc`, after the pool has been renewed -/
def cut (s : State) (length : Nat) : Except Abort State := do
  let start := s.poolOffset
  let stop := start + length
  let slice ← s.sliceOnto start stop
  .ok { s with poolOffset := aligned stop, slices := s.slices ++ [slice] }

def palloc (s : State) (length : Nat) : Except Abort State :=
  if s.exhausted length then do (← s.createPool).cut length else s.cut length

def fromPool (s : State) (length : Nat) : Bool := length ≠ 0 && length ≤ uint32 s.bufferPoolSize / 2

def allocate (s : State) (length : Nat) : Except Abort State :=
  if s.fromPool length then s.palloc length
  else do
    let _ ← alloc length
    .ok s

inductive Action where
  | setPoolSize (n : Nat)
  | allocate (length : Nat)

def step (s : State) : Action → Option State
  | .setPoolSize n => some { s with bufferPoolSize := n }
  | .allocate length => (s.allocate length).toOption

/-- A pool is made only while `Buffer.poolSize` is a 32-bit integer. -/
def fits (s : State) : Action → Bool
  | .setPoolSize _ => true
  | .allocate length => !(s.fromPool length && s.exhausted length) || s.bufferPoolSize < 2 ^ 32

end State

/-! ## Offsets -/

theorem or_of_lt_eight (n : Nat) {low : Nat} (small : low < 8) : n * 8 ||| low = n * 8 + low := by
  have shift : n <<< 3 = n * 8 := Nat.shiftLeft_eq n 3
  rw [← shift, Nat.shiftLeft_add_eq_or_of_lt small]

theorem or_seven (n : Nat) : n ||| 7 = n / 8 * 8 + 7 := by
  have small : n % 8 < 8 := Nat.mod_lt n (by decide)
  have low : ∀ m < 8, m ||| 7 = 7 := by decide
  calc n ||| 7 = (n / 8 * 8 ||| n % 8) ||| 7 := by rw [or_of_lt_eight _ small, Nat.div_add_mod']
    _ = n / 8 * 8 ||| 7 := by rw [Nat.or_assoc, low _ small]
    _ = n / 8 * 8 + 7 := or_of_lt_eight _ (by decide)

theorem aligned_spec (n : Nat) : n ≤ State.aligned n ∧ 8 ∣ State.aligned n := by
  have mask : n &&& 7 = n % 8 := Nat.and_two_pow_sub_one_eq_mod n 3
  rw [State.aligned, mask, or_seven]
  split_ifs with odd
  · exact ⟨by omega, by omega⟩
  · exact ⟨Nat.le_refl n, by omega⟩

/-! ## Every run -/

/-- What holds at any time: the pool is as large as it is taken to be, and what has been cut from it
lies before the offset. -/
structure Sound (s : State) : Prop where
  pool : s.pools[s.allocPool]? = some s.poolSize
  newest : s.pools.length = s.allocPool + 1
  small : s.poolSize ≤ kMaxLength
  aligned : 8 ∣ s.poolOffset
  before : ∀ slice ∈ s.slices, slice.pool = s.allocPool → slice.stop ≤ s.poolOffset
  inside : ∀ slice ∈ s.slices, slice.start ≤ slice.stop ∧ 8 ∣ slice.start ∧
    ∃ size, s.pools[slice.pool]? = some size ∧ slice.stop ≤ size
  apart : s.slices.Pairwise fun a b => a.pool = b.pool → a.stop ≤ b.start

namespace Sound

open State

variable {s s' : State} {length : Nat}

theorem initial : Sound initial where
  pool := rfl
  newest := rfl
  small := by decide
  aligned := ⟨0, rfl⟩
  before _ mem := absurd mem not_mem_nil
  inside _ mem := absurd mem not_mem_nil
  apart := .nil

theorem createPool (sound : Sound s) (fits : s.bufferPoolSize < 2 ^ 32)
    (created : s.createPool = .ok s') : Sound s' := by
  have same : uint32 s.bufferPoolSize = s.bufferPoolSize := Nat.mod_eq_of_lt fits
  rw [State.createPool, alloc, same] at created
  split_ifs at created with small
  · obtain rfl := Except.ok.inj created
    refine ⟨?_, ?_, small, ⟨0, rfl⟩, ?_, ?_, sound.apart⟩
    · simp
    · simp
    · -- nothing has been cut from it yet
      intro slice mem here
      obtain ⟨-, -, size, there, -⟩ := sound.inside slice mem
      have bound := (List.getElem?_eq_some_iff.mp there).1
      dsimp only at here
      omega
    intro slice mem
    obtain ⟨order, start, size, there, stop⟩ := sound.inside slice mem
    refine ⟨order, start, size, ?_, stop⟩
    rw [List.getElem?_append_left (List.getElem?_eq_some_iff.mp there).1]
    exact there
  · cases created

theorem sliceOnto (sound : Sound s) (some_ : length ≠ 0) (enough : ¬s.exhausted length = true) :
    s.sliceOnto s.poolOffset (s.poolOffset + length) =
        .ok ⟨s.allocPool, s.poolOffset, s.poolOffset + length⟩ ∧
      s.poolOffset + length ≤ s.poolSize := by
  have fits : s.poolOffset + length ≤ s.poolSize := by
    simp only [exhausted, decide_eq_true_eq] at enough
    omega
  have small := sound.small
  rw [kMaxLength] at small
  have start : uint32 s.poolOffset = s.poolOffset := Nat.mod_eq_of_lt (by omega)
  have stop : uint32 (s.poolOffset + length) = s.poolOffset + length := Nat.mod_eq_of_lt (by omega)
  have sourceLen : s.pools.getD s.allocPool 0 = s.poolSize := by
    rw [getD_eq_getElem?_getD, sound.pool, Option.getD_some]
  refine ⟨?_, fits⟩
  rw [State.sliceOnto]
  simp only [sourceLen, start, stop]
  rw [if_pos ⟨.inl (by omega), fits, Nat.le_add_right _ _⟩]

/-- A slice is cut from the pool where enough of it is left. -/
theorem cut (sound : Sound s) (some_ : length ≠ 0) (enough : ¬s.exhausted length = true) :
    ∃ s', s.cut length = .ok s' ∧ Sound s' := by
  obtain ⟨sliced, fits⟩ := sound.sliceOnto some_ enough
  obtain ⟨more, aligned⟩ := aligned_spec (s.poolOffset + length)
  have cut : s.cut length = .ok { s with
      poolOffset := State.aligned (s.poolOffset + length)
      slices := s.slices ++ [⟨s.allocPool, s.poolOffset, s.poolOffset + length⟩] } := by
    rw [State.cut, sliced]
    rfl
  refine ⟨_, cut, sound.pool, sound.newest, sound.small, aligned, ?_, ?_, ?_⟩
  · intro slice mem here
    obtain old | new := mem_append.mp mem
    · have before := sound.before slice old here
      dsimp only
      omega
    obtain rfl := mem_singleton.mp new
    exact more
  · intro slice mem
    obtain old | new := mem_append.mp mem
    · exact sound.inside slice old
    obtain rfl := mem_singleton.mp new
    exact ⟨Nat.le_add_right _ _, sound.aligned, s.poolSize, sound.pool, fits⟩
  rw [pairwise_append]
  refine ⟨sound.apart, pairwise_singleton _ _, ?_⟩
  intro slice mem slice' mem' same
  obtain rfl := mem_singleton.mp mem'
  exact sound.before slice mem same

theorem not_exhausted_createPool (small : s.fromPool length = true)
    (fits : s.bufferPoolSize < 2 ^ 32) (created : s.createPool = .ok s') :
    ¬s'.exhausted length = true := by
  have same : uint32 s.bufferPoolSize = s.bufferPoolSize := Nat.mod_eq_of_lt fits
  rw [State.createPool, alloc, same] at created
  split_ifs at created
  · obtain rfl := Except.ok.inj created
    simp only [fromPool, same, Bool.and_eq_true, decide_eq_true_eq] at small
    simp only [exhausted, decide_eq_true_eq]
    omega
  · cases created

theorem createPool_cases (s : State) :
    (∃ s', s.createPool = .ok s') ∨ s.createPool = .error .alloc := by
  rw [State.createPool, alloc]
  split_ifs
  · exact .inl ⟨_, rfl⟩
  · exact .inr rfl

theorem allocate (sound : Sound s) (fits : s.fits (.allocate length) = true) :
    (∃ s', s.allocate length = .ok s' ∧ Sound s') ∨ s.allocate length = .error .alloc := by
  rw [State.allocate]
  by_cases small : s.fromPool length = true
  · have some_ : length ≠ 0 := by
      simp only [fromPool, Bool.and_eq_true, decide_eq_true_eq] at small
      exact small.1
    rw [if_pos small, palloc]
    by_cases exhausted : s.exhausted length = true
    · have value : s.bufferPoolSize < 2 ^ 32 := by simpa [State.fits, small, exhausted] using fits
      rw [if_pos exhausted]
      obtain ⟨s', created⟩ | failed := createPool_cases s
      · rw [created]
        refine .inl ((sound.createPool value created).cut some_ ?_)
        exact not_exhausted_createPool small value created
      rw [failed]
      exact .inr rfl
    rw [if_neg exhausted]
    exact .inl (sound.cut some_ exhausted)
  rw [if_neg small, alloc]
  split_ifs
  · exact .inl ⟨s, rfl, sound⟩
  · exact .inr rfl

/-- One step keeps the pool, while `Buffer.poolSize` is a 32-bit integer. -/
theorem step (sound : Sound s) {action : Action} (fits : s.fits action = true)
    (stepped : s.step action = some s') : Sound s' := by
  cases action with
  | setPoolSize n =>
    cases stepped
    exact ⟨sound.pool, sound.newest, sound.small, sound.aligned, sound.before, sound.inside,
      sound.apart⟩
  | allocate =>
    rw [State.step] at stepped
    obtain ⟨s'', allocated, sound'⟩ | failed := sound.allocate fits
    · rw [allocated] at stepped
      cases stepped
      exact sound'
    rw [failed] at stepped
    cases stepped

end Sound

open State

/-- **The ranges of two Buffers never overlap.**  In every run in which a pool is made only while
`Buffer.poolSize` is below 2³²: the range of a Buffer lies inside the pool it is cut from, and
starts at a multiple of 8; two of the same pool are disjoint; and the next `sliceOnto` succeeds. -/
theorem slices_of_run {s : State}
    (run : Library.Run step (fun s action => s.fits action = true) initial s) :
    (∀ slice ∈ s.slices, slice.start ≤ slice.stop ∧ 8 ∣ slice.start ∧
        ∃ size, s.pools[slice.pool]? = some size ∧ slice.stop ≤ size) ∧
      s.slices.Pairwise (fun a b => a.pool = b.pool → ∀ i, a.Holds i → ¬b.Holds i) ∧
      ∀ length, s.fits (.allocate length) = true → s.allocate length ≠ .error .sliceOnto := by
  have sound : Sound s := run.invariant Sound .initial fun sound fits stepped =>
    sound.step fits stepped
  refine ⟨sound.inside, ?_, ?_⟩
  · refine sound.apart.imp fun {a b} order same i first second => ?_
    exact Nat.lt_irrefl i (Nat.lt_of_lt_of_le first.2 (Nat.le_trans (order same) second.1))
  intro length fits failed
  obtain ⟨s', allocated, -⟩ | failed' := sound.allocate fits
  · rw [allocated] at failed
    cases failed
  rw [failed'] at failed
  cases failed

/-- The value is raised, which makes a new pool, and lowered, which does not. -/
theorem slices_of_two_pools : ∃ s : State,
    s.slices = [⟨0, 0, 100⟩, ⟨0, 104, 4200⟩, ⟨1, 0, 10000⟩, ⟨1, 10000, 10003⟩] ∧
      s.pools = [8192, 20004] ∧
      s.slices.Pairwise (fun a b => a.pool = b.pool → ∀ i, a.Holds i → ¬b.Holds i) := by
  obtain ⟨s, run, slices, pools⟩ := Library.Run.exists_of_exec step
    (fun s action => s.fits action = true) initial
    (fun s => s.slices = [⟨0, 0, 100⟩, ⟨0, 104, 4200⟩, ⟨1, 0, 10000⟩, ⟨1, 10000, 10003⟩] ∧
      s.pools = [8192, 20004])
    [.allocate 100, .allocate 4096, .setPoolSize 20004, .allocate 10000, .setPoolSize 7,
     .allocate 3]
    (by decide)
  exact ⟨s, slices, pools, (slices_of_run run).2.1⟩

/-- A pool of 16 bytes is taken to have 2³² + 16. -/
theorem sliceOnto_aborts : ¬∀ s : State, Library.Run step (fun _ _ => True) initial s →
    ∀ length, s.allocate length ≠ .error .sliceOnto := by
  intro claim
  obtain ⟨s, run, failed⟩ := Library.Run.exists_of_exec step (fun _ _ => True) initial
    (fun s => s.allocate 8 = .error .sliceOnto)
    [.allocate 4096, .allocate 4096, .setPoolSize (2 ^ 32 + 16), .allocate 8, .allocate 8]
    (by decide)
  exact claim s run 8 failed

end IoJs.Buffer.Pool
