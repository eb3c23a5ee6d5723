import IoJs.Library.Runs
import IoJs.Timers.LinkList
import Mathlib.Data.List.Perm.Subperm

/-!
# Immediates

`setImmediate` appends to `immediateQueue`. `processImmediate` takes that list, puts an empty one in
its place, and calls the callbacks of the list it has taken, its batch. If a callback throws, what
is left of the batch goes in front of what has been queued since, and `processImmediate` is called
again in a later tick. A callback may call the functions of this module, and it may run the queue
of ticks; so a call of `processImmediate` may be inside another one.
-/

namespace IoJs.Timers

open IoJs.Library List
open Function (update_eq_self update_of_ne update_self)
open Function (update)

namespace Immediates

inductive Event where
  | created (immediate : Nat)
  | cleared (immediate : Nat)
  | started (immediate : Nat)
  deriving DecidableEq

/-- What the program does where it runs, and the loop of events -/
inductive Action where
  /-- `callable`, if the argument is a function -/
  | setImmediate (callable : Bool)
  | clearImmediate (immediate : Nat)
  /-- C++ calls `process._immediateCallback`. -/
  | check
  /-- `processImmediate` is called from the queue of ticks. -/
  | tick
  /-- a callback returns -/
  | returns
  | throws
  deriving DecidableEq

/-- What does not depend on how immediates are listed -/
structure Callbacks where
  count : Nat
  /-- whether `_onImmediate` can be called -/
  onImmediate : Nat → Bool
  /-- `process._needImmediateCallback` -/
  needImmediateCallback : Bool
  ticks : Nat
  trace : List Event

namespace Callbacks

def initial : Callbacks := ⟨0, fun _ => false, false, 0, []⟩

/-- A new immediate -/
def create (callable : Bool) (s : Callbacks) : Callbacks :=
  { s with
    count := s.count + 1
    onImmediate := update s.onImmediate s.count callable
    needImmediateCallback := true
    trace := s.trace ++ [.created s.count] }

/-- An immediate is cleared; `empty`, if no immediate is queued then. -/
def clear (immediate : Nat) (empty : Bool) (s : Callbacks) : Callbacks :=
  { s with
    onImmediate := update s.onImmediate immediate false
    needImmediateCallback := if empty then false else s.needImmediateCallback
    trace := s.trace ++ [.cleared immediate] }

/-- A callback is called. -/
def start (immediate : Nat) (s : Callbacks) : Callbacks :=
  { s with trace := s.trace ++ [.started immediate] }

/-- The end of `processImmediate` -/
def finish (empty : Bool) (s : Callbacks) : Callbacks :=
  if empty then { s with needImmediateCallback := false } else s

theorem count_finish (empty : Bool) (s : Callbacks) : (s.finish empty).count = s.count := by
  cases empty with
  | true => rfl
  | false => rfl

/-- `process.nextTick(processImmediate)` -/
def schedule (s : Callbacks) : Callbacks := { s with ticks := s.ticks + 1 }

/-- A tick is taken. -/
def unschedule (s : Callbacks) : Callbacks := { s with ticks := s.ticks - 1 }

end Callbacks

end Immediates

open Immediates

def Links.shift (list : Node) (l : Links) : Option Nat × Links :=
  match l.prev list with
  | some (.item i) => (some i, l.remove (.item i))
  | _ => (Option.none, l)

/-- `while (!L.isEmpty(source)) L.append(list, L.shift(source));`, as often as `fuel` allows -/
def Links.moveAll (source list : Node) : Nat → Links → Links
  | 0, l => l
  | fuel + 1, l =>
    if l.isEmpty source then l
    else
      match l.shift source with
      | (some i, l) => Links.moveAll source list fuel (l.append list (.item i))
      | (Option.none, l) => l

namespace Immediates

/-! ## The machine -/

structure State extends Callbacks where
  links : Links
  /-- how many lists have been made -/
  lists : Nat
  immediateQueue : Nat
  /-- `queue` of each `processImmediate` in which a callback runs, the innermost first -/
  frames : List Nat

namespace State

/-- `L.init(immediateQueue)` has been called. -/
def initial : State where
  toCallbacks := .initial
  links := Links.none.init (.head (.list 0))
  lists := 1
  immediateQueue := 0
  frames := []

/-- `L.isEmpty(immediateQueue)` -/
def isEmpty (s : State) : Bool := s.links.isEmpty (.head (.list s.immediateQueue))

def setImmediate (callable : Bool) (s : State) : State :=
  { s with
    toCallbacks := s.toCallbacks.create callable
    links := (s.links.init (.item s.count)).append (.head (.list s.immediateQueue))
      (.item s.count) }

def clearImmediate (immediate : Nat) (s : State) : State :=
  let s := { s with links := s.links.remove (.item immediate) }
  { s with toCallbacks := s.toCallbacks.clear immediate s.isEmpty }

/-- A callback has thrown. -/
def threw (queue : Nat) (s : State) : State :=
  if s.links.isEmpty (.head (.list queue)) then s
  else
    -- Handle any remaining on next tick, assuming we're still alive to do so.
    { s with
      toCallbacks := s.toCallbacks.schedule
      links := s.links.moveAll (.head (.list s.immediateQueue)) (.head (.list queue)) s.count
      immediateQueue := queue }

/-- The loop of `processImmediate`, up to where the program runs -/
def loop (queue : Nat) (s : State) : State :=
  if s.links.isEmpty (.head (.list queue)) then
    { s with toCallbacks := s.toCallbacks.finish s.isEmpty }
  else
    match s.links.shift (.head (.list queue)) with
    | (some immediate, links) =>
      let s := { s with toCallbacks := s.toCallbacks.start immediate, links := links }
      if s.onImmediate immediate then { s with frames := queue :: s.frames } else s.threw queue
    | (none, links) => { s with links := links }

def processImmediate (s : State) : State :=
  let queue := s.immediateQueue
  { s with
    links := s.links.init (.head (.list s.lists))
    lists := s.lists + 1
    immediateQueue := s.lists }.loop queue

def step (s : State) : Action → Option State
  | .setImmediate callable => some (s.setImmediate callable)
  | .clearImmediate immediate =>
    if immediate < s.count then some (s.clearImmediate immediate) else none
  | .check =>
    if s.needImmediateCallback ∧ s.frames = [] then some s.processImmediate else none
  | .tick =>
    if 0 < s.ticks then
      some { s with toCallbacks := s.toCallbacks.unschedule }.processImmediate
    else none
  | .returns =>
    match s.frames with
    | [] => none
    | queue :: frames => some ({ s with frames := frames }.loop queue)
  | .throws =>
    match s.frames with
    | [] => none
    | queue :: frames => some ({ s with frames := frames }.threw queue)

end State

/-! ## Batches and a queue -/

/-- The immediates that wait -/
structure Queues extends Callbacks where
  /-- what is left of the batches in which a callback runs, the innermost first -/
  batches : List (List Nat)
  queue : List Nat

namespace Queues

def initial : Queues := { toCallbacks := .initial, batches := [], queue := [] }

def setImmediate (callable : Bool) (q : Queues) : Queues :=
  { q with toCallbacks := q.toCallbacks.create callable, queue := q.queue ++ [q.count] }

/-- An immediate is taken out wherever it waits. -/
def clearImmediate (immediate : Nat) (q : Queues) : Queues :=
  { q with
    toCallbacks := q.toCallbacks.clear immediate (q.queue.erase immediate).isEmpty
    batches := q.batches.map fun batch => batch.erase immediate
    queue := q.queue.erase immediate }

/-- What is left of a batch is queued in front of the other immediates. -/
def threw (batch : List Nat) (q : Queues) : Queues :=
  if batch = [] then q
  else { q with toCallbacks := q.toCallbacks.schedule, queue := batch ++ q.queue }

/-- The next immediate of a batch is called. -/
def loop (batch : List Nat) (q : Queues) : Queues :=
  match batch with
  | [] => { q with toCallbacks := q.toCallbacks.finish q.queue.isEmpty }
  | immediate :: rest =>
    let q := { q with toCallbacks := q.toCallbacks.start immediate }
    if q.onImmediate immediate then { q with batches := rest :: q.batches } else q.threw rest

/-- The queue becomes a batch. -/
def processImmediate (q : Queues) : Queues := { q with queue := [] }.loop q.queue

def step (q : Queues) : Action → Option Queues
  | .setImmediate callable => some (q.setImmediate callable)
  | .clearImmediate immediate =>
    if immediate < q.count then some (q.clearImmediate immediate) else none
  | .check =>
    if q.needImmediateCallback ∧ q.batches = [] then some q.processImmediate else none
  | .tick =>
    if 0 < q.ticks then
      some { q with toCallbacks := q.toCallbacks.unschedule }.processImmediate
    else none
  | .returns =>
    match q.batches with
    | [] => none
    | batch :: batches => some ({ q with batches := batches }.loop batch)
  | .throws =>
    match q.batches with
    | [] => none
    | batch :: batches => some ({ q with batches := batches }.threw batch)

end Queues

/-! ## The lists -/

variable {l : Links} {made : Head → Prop} {contents : Head → List Nat} {h h' : Head} {i : Nat}
variable {rest : List Nat}

section

variable (holds : Holds l made contents)
include holds

theorem append_new (here : made h) (absent : ∀ h, i ∉ contents h) :
    Holds (l.append (.head h) (.item i)) made
      (update contents h (contents h ++ [i])) := by
  have appended := holds.append_head here i
  rwa [without_of_not_mem absent] at appended

theorem shift_eq (first : contents h = i :: rest) :
    l.shift (.head h) = (some i, l.remove (.item i)) ∧
      Holds (l.remove (.item i)) made (update contents h rest) := by
  have mem : i ∈ contents h := by simp [first]
  have walk := holds.walk (holds.made_of_mem mem)
  rw [first] at walk
  have shifted : l.shift (.head h) = (some i, l.remove (.item i)) := by rw [Links.shift, walk.1]
  refine ⟨shifted, ?_⟩
  have same : without i contents = update contents h rest := by
    funext h'
    by_cases here : h' = h
    · subst here
      simp [without, first]
    rw [update_of_ne here, without]
    exact erase_of_not_mem fun mem' => here (holds.alone mem' mem)
  exact same ▸ holds.remove i

theorem not_mem_of_first
    (first : contents h = i :: rest) (h' : Head) : i ∉ update contents h rest h' := by
  have mem : i ∈ contents h := by simp [first]
  by_cases here : h' = h
  · subst here
    have nodup := holds.nodup h'
    rw [first] at nodup
    simpa using (nodup_cons.mp nodup).1
  rw [update_of_ne here]
  exact fun mem' => here (holds.alone mem' mem)

end

theorem move_nothing (h' : Head) (empty : contents h = []) :
    update (update contents h []) h' (contents h' ++ contents h) = contents := by
  rw [empty, append_nil, ← empty, update_eq_self, update_eq_self]

theorem moveAll_eq (holds : Holds l made contents) (here : made h) (here' : made h')
    (other : h ≠ h') {fuel : Nat} (enough : (contents h).length ≤ fuel) :
    Holds (l.moveAll (.head h) (.head h') fuel) made
      (update (update contents h []) h' (contents h' ++ contents h)) := by
  induction fuel generalizing l contents with
  | zero =>
    rw [move_nothing h' (length_eq_zero_iff.mp (Nat.le_zero.mp enough))]
    exact holds
  | succ fuel ih =>
    rw [Links.moveAll]
    cases first : contents h with
    | nil =>
      have same := move_nothing h' first
      rw [first] at same
      rw [if_pos ((holds.isEmpty_iff here).mpr first), same]
      exact holds
    | cons i rest =>
      have filled : ¬l.isEmpty (.head h) = true := by simp [holds.isEmpty_iff here, first]
      obtain ⟨shifted, removed⟩ := shift_eq holds first
      have appended := append_new removed here' (not_mem_of_first holds first)
      rw [if_neg filled, shifted]
      generalize moved : update (update contents h rest) h'
        (update contents h rest h' ++ [i]) = contents' at appended
      have rest_h : contents' h = rest := by rw [← moved, update_of_ne other, update_self]
      have rest_h' : contents' h' = contents h' ++ [i] := by
        rw [← moved, update_self, update_of_ne other.symm]
      have whole : update (update contents h []) h'
          (contents h' ++ i :: rest) =
          update (update contents' h []) h' (contents' h' ++ contents' h) := by
        rw [rest_h, rest_h', append_assoc, singleton_append]
        funext h''
        by_cases last : h'' = h'
        · subst last
          simp
        by_cases source : h'' = h
        · grind
        · simp [update_of_ne source, ← moved, update_of_ne last]
      rw [whole]
      refine ih appended ?_
      rw [rest_h]
      rw [first] at enough
      exact Nat.le_of_succ_le_succ enough

/-! ## What the machine represents -/

/-- The lists hold batches and a queue. -/
structure Represents (s : State) (q : Queues) (contents : Head → List Nat) : Prop where
  callbacks : s.toCallbacks = q.toCallbacks
  holds : Holds s.links (fun h => ∃ n, n < s.lists ∧ h = .list n) contents
  distinct : (s.immediateQueue :: s.frames).Nodup
  made : ∀ n ∈ s.immediateQueue :: s.frames, n < s.lists
  /-- No other list holds anything. -/
  used : ∀ {h}, contents h ≠ [] → ∃ n ∈ s.immediateQueue :: s.frames, h = .list n
  queue : q.queue = contents (.list s.immediateQueue)
  batches : q.batches = s.frames.map fun n => contents (.list n)
  created : ∀ {h i}, i ∈ contents h → i < s.count

namespace Represents

variable {s s' : State} {q : Queues} {contents : Head → List Nat}

section

variable (rep : Represents s q contents)
include rep

theorem made_queue : ∃ n, n < s.lists ∧ Head.list s.immediateQueue = .list n :=
  ⟨_, rep.made _ mem_cons_self, rfl⟩

theorem isEmpty_eq : s.isEmpty = q.queue.isEmpty := by
  rw [Bool.eq_iff_iff, State.isEmpty, rep.holds.isEmpty_iff rep.made_queue, List.isEmpty_iff,
    rep.queue]

theorem absent (h : Head) : s.count ∉ contents h := fun mem => Nat.lt_irrefl _ (rep.created mem)

theorem setImmediate (callable : Bool) :
    ∃ contents, Represents (s.setImmediate callable) (q.setImmediate callable) contents := by
  have linked := append_new (rep.holds.init_item rep.absent) rep.made_queue rep.absent
  refine ⟨_, ?_, linked, rep.distinct, rep.made, ?_, ?_, ?_, ?_⟩
  · rw [State.setImmediate, Queues.setImmediate, rep.callbacks]
  · intro h some_
    by_cases here : h = .list s.immediateQueue
    · exact ⟨_, mem_cons_self, here⟩
    rw [update_of_ne here] at some_
    exact rep.used some_
  · have count : s.count = q.count := congrArg Callbacks.count rep.callbacks
    change q.queue ++ [q.count] = _
    rw [← count, rep.queue]
    exact (update_self (f := contents) ..).symm
  · refine rep.batches.trans (map_congr_left fun n mem => ?_)
    have other : Head.list n ≠ .list s.immediateQueue := by
      rintro ⟨⟩
      exact (nodup_cons.mp rep.distinct).1 mem
    exact (update_of_ne other ..).symm
  intro h i mem
  by_cases here : h = .list s.immediateQueue
  · rw [here, update_self] at mem
    rcases mem_append.mp mem with old | new
    · exact Nat.lt_succ_of_lt (rep.created old)
    rw [mem_singleton.mp new]
    exact Nat.lt_succ_self _
  rw [update_of_ne here] at mem
  exact Nat.lt_succ_of_lt (rep.created mem)

theorem clearImmediate (i : Nat) :
    ∃ contents, Represents (s.clearImmediate i) (q.clearImmediate i) contents := by
  have removed := rep.holds.remove i
  have empty : (s.links.remove (.item i)).isEmpty (.head (.list s.immediateQueue)) =
      (q.queue.erase i).isEmpty := by
    rw [Bool.eq_iff_iff, removed.isEmpty_iff rep.made_queue, List.isEmpty_iff, rep.queue]
    rfl
  refine ⟨_, ?_, removed, rep.distinct, rep.made, ?_, ?_, ?_, ?_⟩
  · change s.toCallbacks.clear i _ = q.toCallbacks.clear i _
    rw [← rep.callbacks, ← empty]
    rfl
  · intro h some_
    refine rep.used fun none_ => some_ ?_
    rw [without, none_]
    rfl
  · exact congrArg (fun queue : List Nat => queue.erase i) rep.queue
  · change q.batches.map (fun batch => batch.erase i) = _
    rw [rep.batches, List.map_map]
    rfl
  intro h j mem
  have old : j ∈ (contents h).erase i := mem
  exact rep.created (mem_of_mem_erase old)

end

/-! A batch that is being run: its list is put back in front of the frames. -/

variable {n : Nat} {batch : List Nat}

section

variable (rep : Represents { s with frames := n :: s.frames } { q with batches :=
  batch :: q.batches } contents)
include rep

theorem batch_eq :
    batch = contents (.list n) ∧ q.batches = s.frames.map fun n => contents (.list n) :=
  List.cons.inj rep.batches

theorem made_batch : ∃ m, m < s.lists ∧ Head.list n = .list m :=
  ⟨n, rep.made n (mem_cons_of_mem _ mem_cons_self), rfl⟩

theorem isEmpty_batch : s.links.isEmpty (.head (.list n)) = true ↔ batch = [] := by
  rw [rep.batch_eq.1]
  exact rep.holds.isEmpty_iff rep.made_batch

end

theorem leave
    (rep : Represents { s with frames := n :: s.frames } { q with batches := [] :: q.batches }
      contents) : Represents s q contents := by
  obtain ⟨empty, batches⟩ := rep.batch_eq
  refine ⟨rep.callbacks, rep.holds, ?_, ?_, ?_, rep.queue, batches, rep.created⟩
  · exact rep.distinct.sublist ((sublist_cons_self _ _).cons_cons _)
  · intro m mem
    refine rep.made m ?_
    rcases mem_cons.mp mem with rfl | mem
    · exact mem_cons_self
    · exact mem_cons_of_mem _ (mem_cons_of_mem _ mem)
  intro h some_
  obtain ⟨m, mem, rfl⟩ := rep.used some_
  rcases mem_cons.mp mem with rfl | mem
  · exact ⟨_, mem_cons_self, rfl⟩
  · grind

theorem length_le (rep : Represents s q contents) (h : Head) : (contents h).length ≤ s.count := by
  have sub : contents h ⊆ List.range s.count := fun i mem => mem_range.mpr (rep.created mem)
  have le := (subperm_of_subset (rep.holds.nodup h) sub).length_le
  rwa [length_range] at le

theorem threw
    (rep : Represents { s with frames := n :: s.frames } { q with batches := batch :: q.batches }
      contents) : ∃ contents, Represents (s.threw n) (q.threw batch) contents := by
  rw [State.threw, Queues.threw]
  by_cases empty : batch = []
  · subst empty
    rw [if_pos (rep.isEmpty_batch.mpr rfl), if_pos rfl]
    exact ⟨contents, rep.leave⟩
  rw [if_neg (mt rep.isEmpty_batch.mp empty), if_neg empty]
  obtain ⟨first, others⟩ := nodup_cons.mp rep.distinct
  rw [mem_cons, not_or] at first
  have apart : Head.list s.immediateQueue ≠ .list n := fun same => first.1 (Head.list.inj same)
  have moved := moveAll_eq rep.holds rep.made_queue rep.made_batch apart
    (rep.length_le (.list s.immediateQueue))
  obtain ⟨batch_eq, batches⟩ := rep.batch_eq
  refine ⟨_, ?_, moved, others, fun m mem => rep.made m (mem_cons_of_mem _ mem), ?_, ?_, ?_, ?_⟩
  · exact congrArg Callbacks.schedule rep.callbacks
  · intro h some_
    by_cases here : h = .list n
    · exact ⟨n, mem_cons_self, here⟩
    rw [update_of_ne here] at some_
    by_cases source : h = .list s.immediateQueue
    · rw [source, update_self] at some_
      exact absurd rfl some_
    rw [update_of_ne source] at some_
    obtain ⟨m, mem, rfl⟩ := rep.used some_
    rcases mem_cons.mp mem with rfl | mem
    · exact absurd rfl source
    · exact ⟨m, mem, rfl⟩
  · simpa [← batch_eq] using congrArg (batch ++ ·) rep.queue
  · refine batches.trans (map_congr_left fun m mem => ?_)
    have other : Head.list m ≠ .list n := by grind
    have other' : Head.list m ≠ .list s.immediateQueue := by
      rintro ⟨⟩
      exact first.2 mem
    rw [update_of_ne other, update_of_ne other']
  intro h i mem
  by_cases here : h = .list n
  · rw [here, update_self] at mem
    exact (mem_append.mp mem).elim rep.created rep.created
  rw [update_of_ne here] at mem
  by_cases source : h = .list s.immediateQueue
  · simp [source] at mem
  rw [update_of_ne source] at mem
  exact rep.created mem

theorem loop
    (rep : Represents { s with frames := n :: s.frames } { q with batches := batch :: q.batches }
      contents) : ∃ contents, Represents (s.loop n) (q.loop batch) contents := by
  rw [State.loop]
  cases batch with
  | nil =>
    rw [if_pos (rep.isEmpty_batch.mpr rfl), Queues.loop]
    have left := rep.leave
    rw [left.isEmpty_eq, left.callbacks]
    refine ⟨contents, rfl, left.holds, left.distinct, left.made, left.used, left.queue,
      left.batches, fun mem => ?_⟩
    have created := left.created mem
    rw [left.callbacks] at created
    exact (Callbacks.count_finish _ _).symm ▸ created
  | cons immediate rest =>
    obtain ⟨batch_eq, batches⟩ := rep.batch_eq
    obtain ⟨shifted, removed⟩ := shift_eq rep.holds batch_eq.symm
    have filled : ¬s.links.isEmpty (.head (.list n)) = true :=
      fun empty => cons_ne_nil _ _ (rep.isEmpty_batch.mp empty)
    rw [if_neg filled, shifted, Queues.loop]
    have started : Represents
        { s with
          toCallbacks := s.toCallbacks.start immediate
          links := s.links.remove (.item immediate)
          frames := n :: s.frames }
        { q with toCallbacks := q.toCallbacks.start immediate, batches := rest :: q.batches }
        (update contents (.list n) rest) := by
      obtain ⟨first, others⟩ := nodup_cons.mp rep.distinct
      refine ⟨congrArg (Callbacks.start immediate) rep.callbacks, removed, rep.distinct, rep.made,
        ?_, ?_, ?_, ?_⟩
      · intro h some_
        by_cases here : h = .list n
        · exact ⟨n, mem_cons_of_mem _ mem_cons_self, here⟩
        rw [update_of_ne here] at some_
        exact rep.used some_
      · have other : Head.list s.immediateQueue ≠ .list n := by
          rintro ⟨⟩
          exact first mem_cons_self
        rw [update_of_ne other]
        exact rep.queue
      · have same : (s.frames.map fun m => update contents (.list n) rest (.list m)) =
            q.batches := by
          refine (map_congr_left fun m mem => ?_).trans batches.symm
          have other : Head.list m ≠ .list n := by
            rintro ⟨⟩
            exact (nodup_cons.mp others).1 mem
          exact update_of_ne other ..
        rw [map_cons, update_self, same]
      intro h i mem
      by_cases here : h = .list n
      · rw [here, update_self] at mem
        refine rep.created (h := .list n) ?_
        rw [← batch_eq]
        exact mem_cons_of_mem _ mem
      rw [update_of_ne here] at mem
      exact rep.created mem
    have callable : s.onImmediate immediate = q.onImmediate immediate :=
      congrArg (fun callbacks : Callbacks => callbacks.onImmediate immediate) rep.callbacks
    change ∃ contents, Represents (if s.onImmediate immediate = true then _ else _)
      (if q.onImmediate immediate = true then _ else _) contents
    rw [callable]
    by_cases called : q.onImmediate immediate = true
    · grind
    · simpa [called] using started.threw

theorem processImmediate (rep : Represents s q contents) :
    ∃ contents, Represents s.processImmediate q.processImmediate contents := by
  have new : ¬∃ n, n < s.lists ∧ Head.list s.lists = .list n := by simp
  have holds := rep.holds.init_head new
  have made : (fun h => h = Head.list s.lists ∨ ∃ n, n < s.lists ∧ h = .list n) =
      fun h => ∃ n, n < s.lists + 1 ∧ h = Head.list n := by
    funext h
    refine propext ⟨?_, ?_⟩
    · rintro (rfl | ⟨n, lt, rfl⟩)
      · exact ⟨_, Nat.lt_succ_self _, rfl⟩
      · exact ⟨n, Nat.lt_succ_of_lt lt, rfl⟩
    rintro ⟨n, lt, rfl⟩
    rcases Nat.lt_succ_iff_lt_or_eq.mp lt with lt | rfl
    · exact .inr ⟨n, lt, rfl⟩
    · exact .inl rfl
  rw [made] at holds
  have away : s.lists ∉ s.immediateQueue :: s.frames := fun mem => Nat.lt_irrefl _ (rep.made _ mem)
  refine @Represents.loop _ _ contents _ _ ⟨rep.callbacks, holds,
    nodup_cons.mpr ⟨away, rep.distinct⟩, ?_, ?_, (rep.holds.unmade new).1.symm, ?_,
    rep.created⟩
  · intro n mem
    rcases mem_cons.mp mem with rfl | mem
    · exact Nat.lt_succ_self _
    · exact Nat.lt_succ_of_lt (rep.made n mem)
  · intro h some_
    obtain ⟨n, mem, same⟩ := rep.used some_
    exact ⟨n, mem_cons_of_mem _ mem, same⟩
  · exact congrArg₂ List.cons rep.queue rep.batches

theorem initial : ∃ contents, Represents .initial .initial contents := by
  have linked := Holds.initial.init_head (h := .list 0) not_false
  have made : (fun h => h = Head.list 0 ∨ False) = fun h => ∃ n, n < 1 ∧ h = Head.list n := by simp
  rw [made] at linked
  refine ⟨_, rfl, linked, nodup_singleton 0, ?_, fun some_ => absurd rfl some_, rfl, rfl, ?_⟩
  · intro n mem
    rw [mem_singleton.mp mem]
    exact Nat.zero_lt_one
  · rintro h i ⟨⟩

theorem cons_frames (rep : Represents s q contents) {frames : List Nat}
    (under : s.frames = n :: frames) :
    ∃ batch batches, q.batches = batch :: batches ∧
      Represents { s with frames := n :: frames } { q with batches := batch :: batches }
        contents := by
  have batches := rep.batches
  rw [under] at batches
  refine ⟨_, _, batches, rep.callbacks, rep.holds, ?_, ?_, ?_, rep.queue, rfl, rep.created⟩
  · exact under ▸ rep.distinct
  · exact under ▸ rep.made
  · exact under ▸ rep.used

/-- **Each step on the lists is one on the sequences.** -/
theorem step (rep : Represents s q contents) {action : Action} (stepped : s.step action = some s') :
    ∃ q' contents', q.step action = some q' ∧ Represents s' q' contents' := by
  have count : s.count = q.count := congrArg Callbacks.count rep.callbacks
  have need : s.needImmediateCallback = q.needImmediateCallback :=
    congrArg Callbacks.needImmediateCallback rep.callbacks
  have ticks : s.ticks = q.ticks := congrArg Callbacks.ticks rep.callbacks
  have idle : s.frames = [] ↔ q.batches = [] := by simp [rep.batches]
  cases action with
  | setImmediate callable =>
    cases stepped
    obtain ⟨contents', rep'⟩ := rep.setImmediate callable
    exact ⟨_, contents', rfl, rep'⟩
  | clearImmediate immediate =>
    rw [State.step] at stepped
    rw [Queues.step, ← count]
    split_ifs at stepped with made
    cases stepped
    obtain ⟨contents', rep'⟩ := rep.clearImmediate immediate
    exact ⟨_, contents', if_pos made, rep'⟩
  | check =>
    rw [State.step] at stepped
    split_ifs at stepped with called
    cases stepped
    obtain ⟨contents', rep'⟩ := rep.processImmediate
    exact ⟨_, contents', if_pos ⟨need ▸ called.1, idle.mp called.2⟩, rep'⟩
  | tick =>
    rw [State.step] at stepped
    rw [Queues.step, ← ticks]
    split_ifs at stepped with some_
    cases stepped
    have taken : Represents { s with toCallbacks := s.toCallbacks.unschedule }
        { q with toCallbacks := q.toCallbacks.unschedule } contents :=
      ⟨congrArg Callbacks.unschedule rep.callbacks, rep.holds, rep.distinct, rep.made, rep.used,
        rep.queue, rep.batches, rep.created⟩
    obtain ⟨contents', rep'⟩ := taken.processImmediate
    exact ⟨_, contents', if_pos some_, rep'⟩
  | returns =>
    rw [State.step] at stepped
    cases under : s.frames with
    | nil => grind
    | cons n frames =>
      rw [under] at stepped
      cases stepped
      obtain ⟨batch, batches, split, running⟩ := rep.cons_frames under
      obtain ⟨contents', rep'⟩ :=
        Represents.loop (s := { s with frames := frames }) (q := { q with batches := batches })
          running
      rw [Queues.step, split]
      exact ⟨_, contents', rfl, rep'⟩
  | throws =>
    rw [State.step] at stepped
    cases under : s.frames with
    | nil => grind
    | cons n frames =>
      rw [under] at stepped
      cases stepped
      obtain ⟨batch, batches, split, running⟩ := rep.cons_frames under
      obtain ⟨contents', rep'⟩ :=
        Represents.threw (s := { s with frames := frames }) (q := { q with batches := batches })
          running
      rw [Queues.step, split]
      exact ⟨_, contents', rfl, rep'⟩

end Represents

end Immediates

end IoJs.Timers
