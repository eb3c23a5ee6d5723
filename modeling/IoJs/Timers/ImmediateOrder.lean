import IoJs.Library.Histories
import IoJs.Timers.Immediates
import Mathlib.Data.List.Flatten
import Mathlib.Data.List.Range

/-!
# The order of immediates

No immediate is lost, none is called twice or after it has been cleared, and while there is one in
`immediateQueue`, C++ will call `processImmediate` or a tick will (`Whole`).
-/

namespace IoJs.Timers.Immediates

open IoJs.Library List

/-! ## What has happened -/

def createdIn (trace : List Event) : List Nat :=
  trace.filterMap fun event => match event with
    | .created i => some i
    | _ => none

def clearedIn (trace : List Event) : List Nat :=
  trace.filterMap fun event => match event with
    | .cleared i => some i
    | _ => none

def startedIn (trace : List Event) : List Nat :=
  trace.filterMap fun event => match event with
    | .started i => some i
    | _ => none

/-- An immediate that has been made has been neither called nor cleared. -/
structure Waits (trace : List Event) (i : Nat) : Prop where
  created : i ∈ createdIn trace
  started : i ∉ startedIn trace
  cleared : i ∉ clearedIn trace

/-- Only an immediate that waits is called. -/
def Once (trace : List Event) : Prop :=
  Always (fun before event => ∀ i, event = .started i → Waits before i) trace

/-- The one that is called is the oldest one that waits. -/
def InOrder (trace : List Event) : Prop :=
  Always (fun before event => ∀ i, event = .started i → ∀ j, Waits before j → i ≤ j) trace

variable {trace : List Event} {i j : Nat}

theorem waits_created : Waits (trace ++ [.created i]) j ↔
    (j ∈ createdIn trace ∨ j = i) ∧ j ∉ startedIn trace ∧ j ∉ clearedIn trace := by
  have created : createdIn (trace ++ [.created i]) = createdIn trace ++ [i] := filterMap_append ..
  have started : startedIn (trace ++ [.created i]) = startedIn trace :=
    (filterMap_append ..).trans (append_nil _)
  have cleared : clearedIn (trace ++ [.created i]) = clearedIn trace :=
    (filterMap_append ..).trans (append_nil _)
  constructor
  · rintro ⟨made, away, kept⟩
    rw [created, mem_append, mem_singleton] at made
    exact ⟨made, started ▸ away, cleared ▸ kept⟩
  rintro ⟨made, away, kept⟩
  refine ⟨?_, started.symm ▸ away, cleared.symm ▸ kept⟩
  simpa [created] using made

theorem waits_cleared : Waits (trace ++ [.cleared i]) j ↔ Waits trace j ∧ j ≠ i := by
  have created : createdIn (trace ++ [.cleared i]) = createdIn trace :=
    (filterMap_append ..).trans (append_nil _)
  have started : startedIn (trace ++ [.cleared i]) = startedIn trace :=
    (filterMap_append ..).trans (append_nil _)
  have cleared : clearedIn (trace ++ [.cleared i]) = clearedIn trace ++ [i] := filterMap_append ..
  constructor
  · rintro ⟨made, away, kept⟩
    rw [cleared, mem_append, mem_singleton, not_or] at kept
    exact ⟨⟨created ▸ made, started ▸ away, kept.1⟩, kept.2⟩
  rintro ⟨⟨made, away, kept⟩, other⟩
  refine ⟨created.symm ▸ made, started.symm ▸ away, ?_⟩
  simpa [cleared] using ⟨kept, other⟩

theorem waits_started : Waits (trace ++ [.started i]) j ↔ Waits trace j ∧ j ≠ i := by
  have created : createdIn (trace ++ [.started i]) = createdIn trace :=
    (filterMap_append ..).trans (append_nil _)
  have started : startedIn (trace ++ [.started i]) = startedIn trace ++ [i] := filterMap_append ..
  have cleared : clearedIn (trace ++ [.started i]) = clearedIn trace :=
    (filterMap_append ..).trans (append_nil _)
  constructor
  · rintro ⟨made, away, kept⟩
    rw [started, mem_append, mem_singleton, not_or] at away
    exact ⟨⟨created ▸ made, away.1, cleared ▸ kept⟩, away.2⟩
  rintro ⟨⟨made, away, kept⟩, other⟩
  refine ⟨created.symm ▸ made, ?_, cleared.symm ▸ kept⟩
  simpa [started] using ⟨away, other⟩

/-! ## No immediate is lost -/

namespace Queues

/-- The immediates that wait -/
def waiting (q : Queues) : List Nat := q.batches.flatten ++ q.queue

/-- The immediates that wait are in a batch or in the queue, and the queue will be looked at. -/
structure Whole (q : Queues) : Prop where
  nodup : q.waiting.Nodup
  waits : ∀ {i}, i ∈ q.waiting ↔ Waits q.trace i
  created : createdIn q.trace = List.range q.count
  known : ∀ {i}, i ∈ startedIn q.trace ∨ i ∈ clearedIn q.trace → i < q.count
  once : Once q.trace
  flag : q.queue ≠ [] → q.needImmediateCallback = true ∨ 0 < q.ticks

variable {q q' : Queues} {batch rest : List Nat} {action : Action}

theorem Whole.setImmediate (whole : q.Whole) (callable : Bool) :
    (q.setImmediate callable).Whole := by
  have waiting : (q.setImmediate callable).waiting = q.waiting ++ [q.count] :=
    (append_assoc ..).symm
  have new : ∀ {i}, i = q.count → i ∉ startedIn q.trace ∧ i ∉ clearedIn q.trace := by
    rintro i rfl
    exact ⟨fun mem => Nat.lt_irrefl _ (whole.known (.inl mem)),
      fun mem => Nat.lt_irrefl _ (whole.known (.inr mem))⟩
  refine ⟨?_, ?_, ?_, ?_, ?_, fun _ => .inl rfl⟩
  · rw [waiting]
    refine whole.nodup.append (nodup_singleton _) fun i mem last => ?_
    have made := (whole.waits.mp mem).created
    rw [mem_singleton.mp last, whole.created, mem_range] at made
    exact Nat.lt_irrefl _ made
  · intro i
    change _ ↔ Waits (q.trace ++ [.created q.count]) i
    rw [waiting, mem_append, mem_singleton, whole.waits, waits_created]
    constructor
    · rintro (⟨made, away, kept⟩ | same)
      · exact ⟨.inl made, away, kept⟩
      · exact ⟨.inr same, new same⟩
    rintro ⟨made | same, away, kept⟩
    · exact .inl ⟨made, away, kept⟩
    · exact .inr same
  · refine (filterMap_append ..).trans ?_
    rw [Queues.setImmediate, Callbacks.create, range_succ]
    exact congrArg (· ++ [q.count]) whole.created
  · intro i mem
    have started : startedIn (q.trace ++ [.created q.count]) = startedIn q.trace :=
      (filterMap_append ..).trans (append_nil _)
    have cleared : clearedIn (q.trace ++ [.created q.count]) = clearedIn q.trace :=
      (filterMap_append ..).trans (append_nil _)
    refine Nat.lt_succ_of_lt (whole.known ?_)
    rwa [← started, ← cleared]
  · exact whole.once.snoc fun i called => by cases called

theorem waiting_clear (whole : q.Whole) (i : Nat) :
    (q.clearImmediate i).waiting = q.waiting.filter (· != i) := by
  obtain ⟨batches, queue, -⟩ := nodup_append'.mp whole.nodup
  have each : q.batches.map (fun batch => batch.erase i) =
      q.batches.map (List.filter (· != i)) := by
    refine map_congr_left fun batch mem => ?_
    exact ((nodup_flatten.mp batches).1 batch mem).erase_eq_filter i
  rw [waiting, waiting, filter_append, filter_flatten, ← each, ← queue.erase_eq_filter i]
  rfl

theorem Whole.clearImmediate (whole : q.Whole) (made : i < q.count) :
    (q.clearImmediate i).Whole := by
  have started : startedIn (q.trace ++ [.cleared i]) = startedIn q.trace :=
    (filterMap_append ..).trans (append_nil _)
  have cleared : clearedIn (q.trace ++ [.cleared i]) = clearedIn q.trace ++ [i] :=
    filterMap_append ..
  refine ⟨?_, ?_, ?_, ?_, ?_, ?_⟩
  · rw [waiting_clear whole]
    exact whole.nodup.filter _
  · intro j
    change _ ↔ Waits (q.trace ++ [.cleared i]) j
    rw [waiting_clear whole, mem_filter, whole.waits, waits_cleared, bne_iff_ne]
  · exact ((filterMap_append ..).trans (append_nil _)).trans whole.created
  · intro j mem
    have old : j ∈ startedIn q.trace ∨ j ∈ clearedIn q.trace ++ [i] := by rwa [← cleared, ← started]
    rcases old with mem | mem
    · exact whole.known (.inl mem)
    rcases mem_append.mp mem with mem | last
    · exact whole.known (.inr mem)
    rw [mem_singleton.mp last]
    exact made
  · exact whole.once.snoc fun i called => by cases called
  intro some_
  have filled : (q.queue.erase i).isEmpty = false := isEmpty_eq_false_iff.mpr some_
  have before : q.queue ≠ [] := by
    intro empty
    refine some_ ?_
    simp [Queues.clearImmediate, empty]
  refine (whole.flag before).imp (fun need => ?_) id
  rw [Queues.clearImmediate, Callbacks.clear, filled]
  exact need

/-! A batch that is being run counts as the first one. -/

theorem Whole.finish (whole : Whole { q with batches := [] :: q.batches }) : (q.loop []).Whole := by
  have finished : ∀ empty : Bool, empty = q.queue.isEmpty →
      Whole { q with toCallbacks := q.toCallbacks.finish empty } := by
    intro empty read
    cases empty with
    | false => exact ⟨whole.nodup, whole.waits, whole.created, whole.known, whole.once, whole.flag⟩
    | true =>
      refine ⟨whole.nodup, whole.waits, whole.created, whole.known, whole.once, fun some_ => ?_⟩
      exact absurd (List.isEmpty_iff.mp read.symm) some_
  exact finished _ rfl

theorem waiting_threw (batch : List Nat) (q : Queues) :
    (q.threw batch).waiting.Perm ({ q with batches := batch :: q.batches } : Queues).waiting := by
  rw [Queues.threw]
  by_cases empty : batch = []
  · subst empty
    exact List.Perm.refl _
  · simpa [empty, waiting] using (perm_append_comm).append_right q.queue

theorem Whole.threw (whole : Whole { q with batches := batch :: q.batches }) :
    (q.threw batch).Whole := by
  have perm := waiting_threw batch q
  have callbacks : (q.threw batch).trace = q.trace ∧ (q.threw batch).count = q.count ∧
      ((q.threw batch).queue ≠ [] → (q.threw batch).needImmediateCallback = true ∨
        0 < (q.threw batch).ticks) := by
    rw [Queues.threw]
    split_ifs
    · exact ⟨rfl, rfl, whole.flag⟩
    · exact ⟨rfl, rfl, fun _ => .inr (Nat.succ_pos _)⟩
  obtain ⟨trace, count, flag⟩ := callbacks
  refine ⟨perm.nodup_iff.mpr whole.nodup, ?_, ?_, ?_, ?_, flag⟩
  · intro i
    rw [perm.mem_iff, trace]
    exact whole.waits
  · rw [trace, count]
    exact whole.created
  · rw [trace, count]
    exact whole.known
  rw [trace]
  exact whole.once

theorem Whole.start (whole : Whole { q with batches := (i :: rest) :: q.batches }) :
    Whole { q with toCallbacks := q.toCallbacks.start i, batches := rest :: q.batches } := by
  have first : Waits q.trace i := whole.waits.mp mem_cons_self
  obtain ⟨away, nodup⟩ := nodup_cons.mp whole.nodup
  have started : startedIn (q.trace ++ [.started i]) = startedIn q.trace ++ [i] :=
    filterMap_append ..
  have cleared : clearedIn (q.trace ++ [.started i]) = clearedIn q.trace :=
    (filterMap_append ..).trans (append_nil _)
  refine ⟨nodup, ?_, ?_, ?_, ?_, whole.flag⟩
  · intro j
    change _ ↔ Waits (q.trace ++ [.started i]) j
    rw [waits_started]
    constructor
    · intro mem
      refine ⟨whole.waits.mp (mem_cons_of_mem _ mem), ?_⟩
      rintro rfl
      exact away mem
    rintro ⟨waits, other⟩
    exact (mem_cons.mp (whole.waits.mpr waits)).resolve_left other
  · exact ((filterMap_append ..).trans (append_nil _)).trans whole.created
  · intro j mem
    have old : j ∈ startedIn q.trace ++ [i] ∨ j ∈ clearedIn q.trace := by rwa [← cleared, ← started]
    rcases old with mem | mem
    · rcases mem_append.mp mem with mem | last
      · exact whole.known (.inl mem)
      rw [mem_singleton.mp last]
      have made := first.created
      rwa [whole.created, mem_range] at made
    · exact whole.known (.inr mem)
  · exact whole.once.snoc fun j called => Event.started.inj called ▸ first

theorem Whole.loop (whole : Whole { q with batches := batch :: q.batches }) :
    (q.loop batch).Whole := by
  cases batch with
  | nil => exact whole.finish
  | cons i rest =>
    have started := whole.start
    rw [Queues.loop]
    split_ifs
    · exact started
    · exact Whole.threw (q := { q with toCallbacks := q.toCallbacks.start i }) started

theorem Whole.begin (whole : q.Whole) (ticks : Nat) :
    Whole { q with ticks := ticks, batches := q.queue :: q.batches, queue := [] } := by
  have perm : (q.queue ++ q.batches.flatten ++ []).Perm q.waiting := by
    rw [append_nil]
    exact perm_append_comm
  refine ⟨perm.nodup_iff.mpr whole.nodup, ?_, whole.created, whole.known, whole.once,
    fun some_ => absurd rfl some_⟩
  intro i
  exact (perm.mem_iff).trans whole.waits

theorem Whole.processImmediate (whole : q.Whole) (ticks : Nat) :
    (Queues.processImmediate { q with ticks := ticks }).Whole := (whole.begin ticks).loop

/-- Every step keeps the immediates that wait in a batch or in the queue. -/
theorem Whole.step (whole : q.Whole) (stepped : q.step action = some q') : q'.Whole := by
  cases action with
  | setImmediate callable =>
    cases stepped
    exact whole.setImmediate callable
  | clearImmediate i =>
    rw [Queues.step] at stepped
    split_ifs at stepped with made
    cases stepped
    exact whole.clearImmediate made
  | check =>
    rw [Queues.step] at stepped
    split_ifs at stepped
    cases stepped
    exact whole.processImmediate q.ticks
  | tick =>
    rw [Queues.step] at stepped
    split_ifs at stepped
    cases stepped
    exact whole.processImmediate (q.ticks - 1)
  | returns =>
    rw [Queues.step] at stepped
    cases split : q.batches with
    | nil => grind
    | cons =>
      rw [split] at stepped
      cases stepped
      refine Whole.loop ?_
      rw [← split]
      exact whole
  | throws =>
    rw [Queues.step] at stepped
    cases split : q.batches with
    | nil => grind
    | cons =>
      rw [split] at stepped
      cases stepped
      refine Whole.threw ?_
      rw [← split]
      exact whole

theorem whole_initial : initial.Whole := by
  refine ⟨nodup_nil, ?_, rfl, ?_, always_nil _, fun some_ => absurd rfl some_⟩
  · intro i
    refine iff_of_false not_mem_nil fun waits => ?_
    cases waits.created
  rintro i (mem | mem)
  · cases mem
  · cases mem

/-! ## The order -/

/-- The immediates that wait are called in the order in which they have been made. -/
structure Sorted (q : Queues) : Prop where
  sorted : q.waiting.Pairwise (· < ·)
  /-- Only the innermost batch has immediates left. -/
  outer : ∀ batch ∈ q.batches.tail, batch = []
  inOrder : InOrder q.trace

/-- No tick begins a batch while another one has immediates left. -/
def Fine (q : Queues) (action : Action) : Prop :=
  action = .tick → q.queue = [] ∨ ∀ batch ∈ q.batches, batch = []

theorem flatten_eq_nil {batches : List (List Nat)} (empty : ∀ batch ∈ batches, batch = []) :
    batches.flatten = [] := flatten_eq_nil_iff.mpr empty

theorem Sorted.setImmediate (sorted : q.Sorted) (whole : q.Whole) (callable : Bool) :
    (q.setImmediate callable).Sorted := by
  have waiting : (q.setImmediate callable).waiting = q.waiting ++ [q.count] :=
    (append_assoc ..).symm
  refine ⟨?_, sorted.outer, sorted.inOrder.snoc nofun⟩
  rw [waiting, pairwise_append]
  refine ⟨sorted.sorted, pairwise_singleton _ _, fun i mem j last => ?_⟩
  have made := (whole.waits.mp mem).created
  rwa [mem_singleton.mp last, ← mem_range, ← whole.created]

theorem Sorted.clearImmediate (sorted : q.Sorted) (whole : q.Whole) (i : Nat) :
    (q.clearImmediate i).Sorted := by
  refine ⟨?_, ?_, sorted.inOrder.snoc nofun⟩
  · rw [waiting_clear whole]
    exact sorted.sorted.filter _
  intro batch mem
  have old : batch ∈ (q.batches.map fun batch => batch.erase i).tail := mem
  rw [← map_tail] at old
  obtain ⟨batch', mem', rfl⟩ := List.mem_map.mp old
  rw [sorted.outer batch' mem']
  rfl

theorem Sorted.leave (sorted : Sorted { q with batches := [] :: q.batches }) : q.Sorted :=
  ⟨sorted.sorted, fun batch mem => sorted.outer batch (mem_of_mem_tail mem), sorted.inOrder⟩

theorem Sorted.finish (sorted : q.Sorted) : (q.loop []).Sorted := by
  have finished : ∀ empty : Bool, Sorted { q with toCallbacks := q.toCallbacks.finish empty } := by
    intro empty
    cases empty with
    | false | true => exact ⟨sorted.sorted, sorted.outer, sorted.inOrder⟩
  exact finished _

theorem Sorted.threw (sorted : Sorted { q with batches := batch :: q.batches }) :
    (q.threw batch).Sorted := by
  have outer : ∀ batch ∈ q.batches, batch = [] := sorted.outer
  rw [Queues.threw]
  by_cases empty : batch = []
  · subst empty
    exact sorted.leave
  rw [if_neg empty]
  refine ⟨?_, fun batch mem => outer batch (mem_of_mem_tail mem), sorted.inOrder⟩
  have all := sorted.sorted
  rw [waiting, flatten_cons, flatten_eq_nil outer, append_nil] at all
  rw [waiting, flatten_eq_nil outer]
  exact all

theorem Sorted.start (sorted : Sorted { q with batches := (i :: rest) :: q.batches })
    (whole : Whole { q with batches := (i :: rest) :: q.batches }) :
    Sorted { q with toCallbacks := q.toCallbacks.start i, batches := rest :: q.batches } := by
  obtain ⟨oldest, others⟩ := pairwise_cons.mp sorted.sorted
  refine ⟨others, sorted.outer, sorted.inOrder.snoc fun j called k waits => ?_⟩
  obtain rfl := Event.started.inj called
  rcases mem_cons.mp (whole.waits.mpr waits) with rfl | mem
  · exact Nat.le_refl _
  · exact Nat.le_of_lt (oldest k mem)

theorem Sorted.loop (sorted : Sorted { q with batches := batch :: q.batches })
    (whole : Whole { q with batches := batch :: q.batches }) : (q.loop batch).Sorted := by
  cases batch with
  | nil => exact sorted.leave.finish
  | cons i rest =>
    have started := sorted.start whole
    rw [Queues.loop]
    split_ifs
    · exact started
    · exact Sorted.threw (q := { q with toCallbacks := q.toCallbacks.start i }) started

theorem Sorted.processImmediate (sorted : q.Sorted) (whole : q.Whole) (ticks : Nat)
    (fine : q.queue = [] ∨ ∀ batch ∈ q.batches, batch = []) :
    (Queues.processImmediate { q with ticks := ticks }).Sorted := by
  have all := sorted.sorted
  rw [waiting] at all
  rcases fine with empty | outer
  · have same : Queues.processImmediate { q with ticks := ticks } =
        Queues.loop [] { q with ticks := ticks, queue := [] } := by
      rw [Queues.processImmediate, empty]
    rw [same]
    refine Sorted.finish ⟨?_, sorted.outer, sorted.inOrder⟩
    rw [empty] at all
    exact all
  refine Sorted.loop ⟨?_, outer, sorted.inOrder⟩ (whole.begin ticks)
  simpa [waiting, flatten_eq_nil outer] using all

theorem trace_loop (q : Queues) (i : Nat) (rest : List Nat) :
    (q.loop (i :: rest)).trace = q.trace ++ [.started i] := by
  rw [Queues.loop]
  split_ifs
  · rfl
  rw [Queues.threw]
  split_ifs
  · rfl
  · rfl

theorem Sorted.overtaken (sorted : q.Sorted) (whole : q.Whole) (ticks : Nat)
    (queued : q.queue ≠ []) (outer : batch ∈ q.batches) (left : batch ≠ []) :
    ¬InOrder (Queues.processImmediate { q with ticks := ticks }).trace := by
  intro inOrder
  obtain ⟨y, rest, first⟩ := exists_cons_of_ne_nil queued
  obtain ⟨j, others, here⟩ := exists_cons_of_ne_nil left
  have mem : j ∈ q.batches.flatten := by
    refine mem_flatten.mpr ⟨batch, outer, ?_⟩
    simp [here]
  have mem' : y ∈ q.queue := by simp [first]
  have older : j < y := (pairwise_append.mp sorted.sorted).2.2 j mem y mem'
  have waits : Waits q.trace j := whole.waits.mp (mem_append_left _ mem)
  have trace : (Queues.processImmediate { q with ticks := ticks }).trace =
      q.trace ++ [.started y] := by
    rw [Queues.processImmediate]
    simpa [first] using trace_loop _ y rest
  rw [trace] at inOrder
  have le := @inOrder q.trace _ [] rfl y rfl j waits
  omega

/-- **A step keeps the order** exactly when it is fine, and then the rest stays sorted. -/
theorem Sorted.step_iff (sorted : q.Sorted) (whole : q.Whole) (stepped : q.step action = some q') :
    (InOrder q'.trace ↔ q.Fine action) ∧ (q.Fine action → q'.Sorted) := by
  have kept : ∀ {action}, action ≠ .tick → q'.Sorted →
      (InOrder q'.trace ↔ q.Fine action) ∧ (q.Fine action → q'.Sorted) := by
    intro action other sorted'
    exact ⟨iff_of_true sorted'.inOrder fun tick => absurd tick other, fun _ => sorted'⟩
  cases action with
  | setImmediate callable =>
    cases stepped
    exact kept (by rintro ⟨⟩) (sorted.setImmediate whole callable)
  | clearImmediate i =>
    rw [Queues.step] at stepped
    split_ifs at stepped with made
    cases stepped
    exact kept (by rintro ⟨⟩) (sorted.clearImmediate whole i)
  | check =>
    rw [Queues.step] at stepped
    split_ifs at stepped with called
    cases stepped
    refine kept (by rintro ⟨⟩) (sorted.processImmediate whole q.ticks (.inr ?_))
    rw [called.2]
    rintro batch ⟨⟩
  | tick =>
    rw [Queues.step] at stepped
    split_ifs at stepped
    cases stepped
    have fine := sorted.processImmediate whole (q.ticks - 1)
    refine ⟨⟨fun inOrder _ => ?_, fun allowed => (fine (allowed rfl)).inOrder⟩,
      fun allowed => fine (allowed rfl)⟩
    by_contra both
    rw [not_or] at both
    obtain ⟨queued, some_⟩ := both
    rw [not_forall] at some_
    obtain ⟨batch, outer⟩ := some_
    rw [not_forall] at outer
    obtain ⟨outer, left⟩ := outer
    exact sorted.overtaken whole (q.ticks - 1) queued outer left inOrder
  | returns =>
    rw [Queues.step] at stepped
    cases split : q.batches with
    | nil => grind
    | cons =>
      rw [split] at stepped
      cases stepped
      refine kept (by rintro ⟨⟩) (Sorted.loop ?_ ?_)
      · rw [← split]
        exact sorted
      rw [← split]
      exact whole
  | throws =>
    rw [Queues.step] at stepped
    cases split : q.batches with
    | nil => simp [split] at stepped
    | cons =>
      rw [split] at stepped
      cases stepped
      refine kept (by rintro ⟨⟩) (Sorted.threw ?_)
      rw [← split]
      exact sorted

theorem sorted_initial : initial.Sorted := ⟨List.Pairwise.nil, by rintro batch ⟨⟩, always_nil _⟩

end Queues

/-! ## Runs -/

namespace State

/-- No immediate is lost. -/
structure Kept (s : State) : Prop where
  created : createdIn s.trace = List.range s.count
  once : Once s.trace
  /-- The immediates that wait are those in the lists. -/
  listed : ∀ i, Waits s.trace i ↔
    ∃ n ∈ s.immediateQueue :: s.frames, i ∈ s.links.items s.count (.head (.list n))
  flag : s.isEmpty = false → s.needImmediateCallback = true ∨ 0 < s.ticks

/-- A tick calls `processImmediate` where no immediate is queued, or no other call of it has
immediates left. -/
def Fine (s : State) (action : Action) : Prop :=
  action = .tick → s.isEmpty = true ∨
    ∀ queue ∈ s.frames, s.links.isEmpty (.head (.list queue)) = true

variable {s s' : State} {q : Queues} {contents : Head → List Nat}

theorem fine_iff (rep : Represents s q contents) (action : Action) :
    s.Fine action ↔ q.Fine action := by
  have outer : (∀ queue ∈ s.frames, s.links.isEmpty (.head (.list queue)) = true) ↔
      ∀ batch ∈ q.batches, batch = [] := by
    rw [rep.batches, List.forall_mem_map]
    refine forall₂_congr fun n mem => ?_
    exact rep.holds.isEmpty_iff ⟨n, rep.made n (mem_cons_of_mem _ mem), rfl⟩
  simp [Fine, Queues.Fine, outer, rep.isEmpty_eq]

theorem kept_of_whole (rep : Represents s q contents) (whole : q.Whole) : s.Kept := by
  have trace : s.trace = q.trace := congrArg Callbacks.trace rep.callbacks
  have count : s.count = q.count := congrArg Callbacks.count rep.callbacks
  refine ⟨?_, ?_, ?_, ?_⟩
  · rw [trace, count]
    exact whole.created
  · rw [trace]
    exact whole.once
  · intro i
    rw [trace, ← whole.waits, Queues.waiting, mem_append, rep.batches, rep.queue]
    simp only [rep.holds.items_eq (rep.length_le _), mem_flatten, List.mem_map, mem_cons]
    constructor
    · grind
    · grind
  intro some_
  rw [rep.isEmpty_eq, isEmpty_eq_false_iff] at some_
  have flag := whole.flag some_
  rwa [← rep.callbacks] at flag

/-- A state whose lists hold what waits, in order -/
def Ordered (s : State) : Prop := ∃ q contents, Represents s q contents ∧ q.Whole ∧ q.Sorted

/-- In a run of fine steps the immediates are called in order. -/
theorem ordered_of_run (run : Run step Fine initial s) : s.Ordered := by
  obtain ⟨contents, rep⟩ := Represents.initial
  refine run.invariant Ordered ⟨_, contents, rep, Queues.whole_initial, Queues.sorted_initial⟩ ?_
  rintro s s' action ⟨q, contents, rep, whole, sorted⟩ fine stepped
  obtain ⟨q', contents', stepped', rep'⟩ := rep.step stepped
  exact ⟨q', contents', rep', whole.step stepped',
    (sorted.step_iff whole stepped').2 ((fine_iff rep action).mp fine)⟩

/-- **No immediate is lost, and the oldest one that waits is called next**, in every run in which no
tick calls `processImmediate` out of turn; where one does, the order is broken. -/
theorem immediates_in_order (s : State) : (Run step (fun _ _ => True) initial s → s.Kept) ∧
    (Run step Fine initial s → InOrder s.trace) ∧
    ∀ {s' : State} {action : Action}, Run step Fine initial s → s.step action = some s' →
      (InOrder s'.trace ↔ s.Fine action) := by
  refine ⟨fun run => ?_, fun run => ?_, fun {s' action} run stepped => ?_⟩
  · obtain ⟨contents, rep⟩ := Represents.initial
    have represented : ∃ q contents, Represents s q contents ∧ q.Whole := by
      refine run.invariant (fun s => ∃ q contents, Represents s q contents ∧ q.Whole)
        ⟨_, contents, rep, Queues.whole_initial⟩ ?_
      rintro s s' action ⟨q, contents, rep, whole⟩ - stepped
      obtain ⟨q', contents', stepped', rep'⟩ := rep.step stepped
      exact ⟨q', contents', rep', whole.step stepped'⟩
    obtain ⟨q, contents, rep, whole⟩ := represented
    exact kept_of_whole rep whole
  · obtain ⟨q, contents, rep, -, sorted⟩ := ordered_of_run run
    rw [rep.callbacks]
    exact sorted.inOrder
  obtain ⟨q, contents, rep, whole, sorted⟩ := ordered_of_run run
  obtain ⟨q', contents', stepped', rep'⟩ := rep.step stepped
  rw [rep'.callbacks, fine_iff rep]
  exact (sorted.step_iff whole stepped').1

instance (s : State) (action : Action) : Decidable (s.Fine action) :=
  inferInstanceAs (Decidable (_ → _))

/-- The first of two immediates throws, and a tick calls the other one. -/
theorem immediates_in_order_two :
    ∃ s, Run step Fine initial s ∧ InOrder s.trace ∧ startedIn s.trace = [0, 1] := by
  let actions : List Action := [.setImmediate true, .setImmediate true, .check, .throws, .tick]
  have done : (exec step Fine initial actions).isSome = true ∧
      ∀ s ∈ exec step Fine initial actions, startedIn s.trace = [0, 1] := by decide
  obtain ⟨s, found⟩ := Option.isSome_iff_exists.mp done.1
  have run := Run.of_exec .refl found
  exact ⟨s, run, (immediates_in_order s).2.1 run, done.2 s found⟩

/-- Two immediates throw, and each time the queue of ticks is left to a new immediate. The first of
these makes one that overtakes the others. -/
theorem immediate_overtaken : ¬∀ s, Run step (fun _ _ => True) initial s → InOrder s.trace := by
  intro claim
  let actions : List Action := [.setImmediate true, .setImmediate true, .check, .throws,
    .setImmediate true, .check, .setImmediate true, .throws, .setImmediate true, .check, .tick,
    .setImmediate true, .tick]
  have done : (exec step (fun _ _ => True) initial actions).isSome = true ∧
      ∀ s ∈ exec step (fun _ _ => True) initial actions, s.trace =
        [.created 0, .created 1, .started 0, .created 2, .started 1, .created 3, .created 4,
          .started 2, .created 5] ++ .started 5 :: [] := by decide
  obtain ⟨s, found⟩ := Option.isSome_iff_exists.mp done.1
  have le := claim s (Run.of_exec .refl found) (done.2 s found) 5 rfl 3
    ⟨by decide, by decide, by decide⟩
  omega

/-- **The linked lists of immediates are a queue and its batches.** Whatever run the lists make, the
queues make it too, and they end with the same immediates in the same order. -/
theorem refines_batches (run : Run step (fun _ _ => True) initial s) :
    ∃ q contents, Run Queues.step (fun _ _ => True) .initial q ∧ Represents s q contents := by
  induction run with
  | refl =>
    obtain ⟨contents, rep⟩ := Represents.initial
    exact ⟨_, contents, .refl, rep⟩
  | tail run allowed stepped ih =>
    obtain ⟨q, contents, same, rep⟩ := ih
    obtain ⟨q', contents', stepped', rep'⟩ := rep.step stepped
    exact ⟨q', contents', same.tail trivial stepped', rep'⟩

/-- An immediate throws, and the other one is left. -/
theorem refines_batches_left : ∃ s : State, s.ticks = 1 ∧
    ∃ q contents, Run Queues.step (fun _ _ => True) .initial q ∧ Represents s q contents := by
  obtain ⟨s, run, left⟩ := Run.exists_of_exec step (fun _ _ => True) initial (·.ticks = 1)
    [.setImmediate true, .setImmediate true, .check, .throws] (by decide)
  exact ⟨s, left, refines_batches run⟩

end State

end IoJs.Timers.Immediates
