import IoJs.Library.Histories
import IoJs.Library.Steps
import Mathlib.Data.List.Range

/-!
# The queue of ticks

`nextTickQueue` keeps the callbacks that have been called until `tickDone` takes them out: where a
callback throws, after every 10000 of them, and at the end of a round. `tickInfo`, which C++ reads,
says how long the queue is and how many of the callbacks in it have been called.
-/

namespace IoJs.NextTick

open IoJs.Library List

/-- `callback` of a `TickObject`: a function of the program, or `runMicrotasksCallback` -/
inductive Callback where
  | program (function : Nat)
  | runMicrotasks
  deriving DecidableEq

/-- `TickObject`; the number is how many have been made before. -/
structure Tick where
  id : Nat
  callback : Callback
  domain : Option Nat
  deriving DecidableEq

/-- Where the program runs in a callback -/
inductive Phase where
  | program (function : Nat)
  /-- `_runMicrotasks()` of `runMicrotasksCallback` -/
  | runMicrotasks
  /-- `emitPendingUnhandledRejections()` there, with `hadListeners` -/
  | emitting (hadListeners : Bool)

/-- Where a callback begins -/
def Callback.phase : Callback → Phase
  | .program function => .program function
  | .runMicrotasks => .runMicrotasks

/-- A call of `_tickCallback`, or of `_tickDomainCallback` -/
inductive Frame where
  | callback (domains : Bool) (domain : Option Nat) (phase : Phase)
  /-- `_runMicrotasks()` -/
  | microtasks (domains : Bool)
  /-- `emitPendingUnhandledRejections()` -/
  | emitting (domains : Bool)

inductive Event where
  | queued (tick : Tick)
  | entered (domain : Nat)
  | started (tick : Tick)
  | exited (domain : Nat)
  /-- `_tickCallback` returns. -/
  | drained

/-- What the program does, wherever it runs, and C++ -/
inductive Action where
  /-- `nextTick(function)`; `process.domain` is `domain`. -/
  | nextTick (function : Nat) (domain : Option Nat)
  | tickCallback (domains : Bool)
  | unhandledRejection (promise : Nat)
  | rejectionHandled (promise : Nat)
  /-- `process._exiting = true` -/
  | exiting
  /-- `MakeCallback` finds no ticks. -/
  | makeCallback
  /-- `listeners` is what `process.emit` returns. -/
  | returns (listeners : Bool)
  | throws

structure State where
  /-- `nextTickQueue` -/
  queue : List Tick
  /-- `tickInfo[kIndex]` -/
  index : Nat
  /-- `tickInfo[kLength]` -/
  length : Nat
  microtasksScheduled : Bool
  pendingUnhandledRejections : List Nat
  /-- `hasBeenNotifiedProperty` -/
  hasBeenNotified : Nat → Option Bool
  /-- `process._exiting` -/
  exiting : Bool
  frames : List Frame
  count : Nat
  trace : List Event

namespace State

def initial : State where
  queue := []
  index := 0
  length := 0
  microtasksScheduled := false
  pendingUnhandledRejections := []
  hasBeenNotified := fun _ => none
  exiting := false
  frames := []
  count := 0
  trace := []

def push (frame : Frame) (s : State) : State := { s with frames := frame :: s.frames }

def log (events : List Event) (s : State) : State := { s with trace := s.trace ++ events }

/-- `nextTickQueue.push`, and `tickInfo[kLength]++` -/
def enqueue (callback : Callback) (domain : Option Nat) (s : State) : State :=
  { s with
    queue := s.queue ++ [⟨s.count, callback, domain⟩]
    length := s.length + 1
    count := s.count + 1
    trace := s.trace ++ [.queued ⟨s.count, callback, domain⟩] }

def nextTick (function : Nat) (domain : Option Nat) (s : State) : State :=
  -- on the way out, don't bother.
  if s.exiting then s else s.enqueue (.program function) domain

def scheduleMicrotasks (s : State) : State :=
  if s.microtasksScheduled then s
  else { s.enqueue .runMicrotasks none with microtasksScheduled := true }

def tickDone (s : State) : State :=
  let s :=
    if s.length ≠ 0 then
      if s.length ≤ s.index then { s with queue := [], length := 0 }
      else { s with queue := s.queue.drop s.index, length := (s.queue.drop s.index).length }
    else s
  { s with index := 0 }

/-- A callback is called. -/
def start (domains : Bool) (tick : Tick) (s : State) : State :=
  let s := { s with index := s.index + 1 }
  let s := if domains then s.log (tick.domain.toList.map .entered) else s
  let s := s.log [.started tick]
  let s := if tick.callback = .runMicrotasks then { s with microtasksScheduled := false } else s
  s.push (.callback domains tick.domain tick.callback.phase)

/-- The inner loop of `_tickCallback`, up to where the program runs -/
def drain (domains : Bool) (s : State) : State :=
  if s.index < s.length then
    match s.queue[s.index]? with
    | some tick => s.start domains tick
    -- A property of `undefined` is read, and the call is left.
    | none => { s with index := s.index + 1 }
  else s.tickDone.push (.microtasks domains)

/-- The first promise of the list that has not been notified, and what is behind it -/
def nextRejection (hasBeenNotified : Nat → Option Bool) : List Nat → Option (Nat × List Nat)
  | [] => none
  | promise :: rest =>
    if hasBeenNotified promise = some false then some (promise, rest)
    else nextRejection hasBeenNotified rest

/-- The loop of `emitPendingUnhandledRejections`: the next listener runs in `frame`, or the loop is
done. -/
def emitPending (frame : Frame) (done : State → State) (s : State) : State :=
  match nextRejection s.hasBeenNotified s.pendingUnhandledRejections with
  | some (promise, rest) =>
    { s with
      pendingUnhandledRejections := rest
      hasBeenNotified := Function.update s.hasBeenNotified promise (some true) }.push frame
  | none => done { s with pendingUnhandledRejections := [] }

/-- The end of a round of `_tickCallback` -/
def finishRound (domains : Bool) (s : State) : State :=
  if s.length ≠ 0 then s.drain domains else s.log [.drained]

/-- The loop goes on behind a callback. -/
def callbackReturned (domains : Bool) (domain : Option Nat) (s : State) : State :=
  let s := if 10000 < s.index then s.tickDone else s
  let s := if domains then s.log (domain.toList.map .exited) else s
  s.drain domains

/-- The end of `runMicrotasksCallback` -/
def microtasksCallbackDone (domains : Bool) (domain : Option Nat) (schedule : Bool) (s : State) :
    State :=
  (if schedule then s.scheduleMicrotasks else s).callbackReturned domains domain

/-- Where the program runs, it returns. -/
def returns (listeners : Bool) (s : State) : Option State :=
  match s.frames with
  | [] => none
  | frame :: frames =>
    let s := { s with frames := frames }
    match frame with
    | .callback domains domain (.program _) => some (s.callbackReturned domains domain)
    | .callback domains domain .runMicrotasks =>
      some (if s.index < s.length then s.microtasksCallbackDone domains domain true
        else s.emitPending (.callback domains domain (.emitting false))
          (microtasksCallbackDone domains domain false))
    | .callback domains domain (.emitting hadListeners) =>
      some (s.emitPending (.callback domains domain (.emitting (hadListeners || listeners)))
        (microtasksCallbackDone domains domain (hadListeners || listeners)))
    | .microtasks domains => some (s.emitPending (.emitting domains) (finishRound domains))
    | .emitting domains => some (s.emitPending (.emitting domains) (finishRound domains))

/-- It throws, and the call of `_tickCallback` is left. -/
def throws (s : State) : Option State :=
  match s.frames with
  | [] => none
  | .callback _ _ _ :: frames => some { s with frames := frames }.tickDone
  | .microtasks _ :: frames => some { s with frames := frames }
  | .emitting _ :: frames => some { s with frames := frames }

def step (s : State) : Action → Option State
  | .nextTick function domain => some (s.nextTick function domain)
  | .tickCallback domains => some (s.drain domains)
  | .unhandledRejection promise =>
    some { s with
      hasBeenNotified := Function.update s.hasBeenNotified promise (some false)
      pendingUnhandledRejections := s.pendingUnhandledRejections ++ [promise] }.scheduleMicrotasks
  | .rejectionHandled promise =>
    some { s with hasBeenNotified := Function.update s.hasBeenNotified promise none }
  | .exiting => some { s with exiting := true }
  | .makeCallback => some (if s.length = 0 then { s with index := 0 } else s)
  | .returns listeners => s.returns listeners
  | .throws => s.throws

/-- The callbacks that wait -/
def waiting (s : State) : List Tick := s.queue.drop s.index

end State

/-! ## The order of callbacks -/

/-- The callbacks that have been queued -/
def queuedIn (trace : List Event) : List Tick :=
  trace.filterMap fun event => match event with
    | .queued tick => some tick
    | _ => none

/-- The callbacks that have been called -/
def startedIn (trace : List Event) : List Tick :=
  trace.filterMap fun event => match event with
    | .started tick => some tick
    | _ => none

/-- The function of the program that is called, and its domain -/
def Tick.program (tick : Tick) : Option (Nat × Option Nat) :=
  match tick.callback with
  | .program function => some (function, tick.domain)
  | .runMicrotasks => none

/-- What an action gives to `nextTick` -/
def Action.given : Action → Option (Nat × Option Nat)
  | .nextTick function domain => some (function, domain)
  | _ => none

def Action.isExiting : Action → Bool
  | .exiting => true
  | _ => false

/-- What the program gives to `nextTick` before the process exits, in the order of its calls -/
def given : List Action → List (Nat × Option Nat)
  | [] => []
  | action :: rest => if action.isExiting then [] else action.given.toList ++ given rest

namespace State

/-- What has been given to `nextTick` has been queued in this order, the callbacks have been called
in order, and no other ones wait. -/
structure Ordered (s : State) (given : List (Nat × Option Nat)) : Prop where
  le : s.index ≤ s.length
  length : s.length = s.queue.length
  /-- Each callback in the queue is one of its own. -/
  ids : (queuedIn s.trace).map Tick.id = List.range s.count
  programs : (queuedIn s.trace).filterMap Tick.program = given
  started : startedIn s.trace ++ s.waiting = queuedIn s.trace
  /-- `_tickCallback` returns where no callback is left. -/
  drained : Always (fun before event => event = .drained → startedIn before = queuedIn before)
    s.trace
  last : s.trace.getLast? = some .drained → s.queue = []

variable {s s' : State} {tick : Tick} {given : List (Nat × Option Nat)}

section

variable (ordered : s.Ordered given)
include ordered

theorem Ordered.of_eq (queue : s'.queue = s.queue)
    (index : s'.index = s.index) (length : s'.length = s.length) (count : s'.count = s.count)
    (trace : s'.trace = s.trace) : s'.Ordered given := by
  have waiting : s'.waiting = s.waiting := by rw [State.waiting, queue, index, State.waiting]
  refine ⟨?_, ?_, ?_, ?_, ?_, ?_, ?_⟩
  · rw [index, length]
    exact ordered.le
  · rw [length, queue]
    exact ordered.length
  · rw [trace, count]
    exact ordered.ids
  · rw [trace]
    exact ordered.programs
  · rw [trace, waiting]
    exact ordered.started
  · rw [trace]
    exact ordered.drained
  rw [trace, queue]
  exact ordered.last

theorem Ordered.push (frame : Frame) : (s.push frame).Ordered given :=
  ordered.of_eq rfl rfl rfl rfl rfl

theorem Ordered.started_eq (none_ : s.waiting = []) : startedIn s.trace = queuedIn s.trace := by
  have whole := ordered.started
  rwa [none_, append_nil] at whole

/-- An event that is no callback's -/
theorem Ordered.log (event : Event) (queued : queuedIn [event] = [])
    (started : startedIn [event] = [])
    (drained : event = .drained → s.queue = []) : (s.log [event]).Ordered given := by
  have queued' : queuedIn (s.trace ++ [event]) = queuedIn s.trace :=
    (filterMap_append ..).trans ((congrArg _ queued).trans (append_nil _))
  have started' : startedIn (s.trace ++ [event]) = startedIn s.trace :=
    (filterMap_append ..).trans ((congrArg _ started).trans (append_nil _))
  refine ⟨ordered.le, ordered.length, ?_, ?_, ?_, ?_, ?_⟩
  · exact (congrArg (List.map Tick.id) queued').trans ordered.ids
  · exact (congrArg (List.filterMap Tick.program) queued').trans ordered.programs
  · exact (congrArg (· ++ s.waiting) started').trans (ordered.started.trans queued'.symm)
  · refine ordered.drained.snoc fun here => ordered.started_eq ?_
    rw [State.waiting, drained here, drop_nil]
  intro last
  rw [State.log, List.getLast?_concat] at last
  exact drained (Option.some.inj last)

theorem Ordered.enter (domains : Bool) (domain : Option Nat) :
    (if domains then s.log (domain.toList.map .entered) else s).Ordered given := by
  split_ifs
  · cases domain with
    | none => exact ordered.of_eq rfl rfl rfl rfl (append_nil _)
    | some d => exact ordered.log _ rfl rfl nofun
  · exact ordered

theorem Ordered.exit (domains : Bool) (domain : Option Nat) :
    (if domains then s.log (domain.toList.map .exited) else s).Ordered given := by
  split_ifs
  · cases domain with
    | none => exact ordered.of_eq rfl rfl rfl rfl (append_nil _)
    | some d => exact ordered.log _ rfl rfl nofun
  · exact ordered

/-! ## What the operations do to the callbacks that wait -/

theorem Ordered.enqueue (callback : Callback) (domain : Option Nat) :
    (s.enqueue callback domain).Ordered
      (given ++ (Tick.program ⟨s.count, callback, domain⟩).toList) := by
  have le : s.index ≤ s.queue.length := ordered.length ▸ ordered.le
  let tick : Tick := ⟨s.count, callback, domain⟩
  have waiting : (s.enqueue callback domain).waiting = s.waiting ++ [tick] :=
    drop_append_of_le_length le
  have queued : queuedIn (s.trace ++ [.queued tick]) = queuedIn s.trace ++ [tick] :=
    filterMap_append ..
  have started : startedIn (s.trace ++ [.queued tick]) = startedIn s.trace :=
    (filterMap_append ..).trans (append_nil _)
  refine ⟨Nat.le_succ_of_le ordered.le, ?_, ?_, ?_, ?_, ?_, ?_⟩
  · simp [State.enqueue, ordered.length]
  · refine (congrArg (List.map Tick.id) queued).trans ?_
    rw [map_append, ordered.ids]
    exact range_succ.symm
  · refine (congrArg (List.filterMap Tick.program) queued).trans ?_
    rw [filterMap_append, ordered.programs]
    cases program : tick.program <;> simp [tick, program]
  · rw [waiting, ← append_assoc]
    refine Eq.trans ?_ queued.symm
    rw [← ordered.started]
    exact congrArg (· ++ s.waiting ++ [tick]) started
  · exact ordered.drained.snoc nofun
  · simp [State.enqueue]

theorem Ordered.tickDone : s.tickDone.Ordered given ∧ s.tickDone.waiting = s.waiting := by
  have built : ∀ {s' : State}, s'.index = 0 → s'.length = s'.queue.length →
      s'.queue = s.waiting → s'.count = s.count → s'.trace = s.trace →
      s'.Ordered given ∧ s'.waiting = s.waiting := by
    intro s' index length queue count trace
    have waiting : s'.waiting = s.waiting := by
      rw [State.waiting, index]
      exact queue
    refine ⟨⟨?_, length, ?_, ?_, ?_, ?_, ?_⟩, waiting⟩
    · simp [index]
    · rw [trace, count]
      exact ordered.ids
    · rw [trace]
      exact ordered.programs
    · rw [trace, waiting]
      exact ordered.started
    · rw [trace]
      exact ordered.drained
    intro last
    rw [trace] at last
    rw [queue, State.waiting, ordered.last last, drop_nil]
  have length := ordered.length
  rw [State.tickDone]
  split_ifs with some_ consumed
  · have none_ : s.waiting = [] := drop_eq_nil_of_le (length ▸ consumed)
    exact @built { s with queue := [], length := 0, index := 0 } rfl rfl none_.symm rfl rfl
  · exact @built
      { s with
        queue := s.queue.drop s.index
        length := (s.queue.drop s.index).length
        index := 0 } rfl rfl rfl rfl rfl
  have none_ : s.queue = [] := by grind
  exact @built { s with index := 0 } rfl length (by rw [State.waiting, none_, drop_nil]) rfl rfl

end

/-- The first callback that waits is taken. -/
def take (tick : Tick) (s : State) : State :=
  { s with index := s.index + 1, trace := s.trace ++ [.started tick] }

section

variable (ordered : s.Ordered given)
include ordered

theorem Ordered.take (first : s.queue[s.index]? = some tick) :
    (s.take tick).Ordered given ∧ s.waiting = tick :: (s.take tick).waiting := by
  obtain ⟨lt, here⟩ := List.getElem?_eq_some_iff.mp first
  have split : s.waiting = tick :: (s.take tick).waiting := by
    rw [State.waiting, drop_eq_getElem_cons lt, here]
    rfl
  have queued : queuedIn (s.trace ++ [.started tick]) = queuedIn s.trace :=
    (filterMap_append ..).trans (append_nil _)
  have started : startedIn (s.trace ++ [.started tick]) = startedIn s.trace ++ [tick] :=
    filterMap_append ..
  refine ⟨⟨?_, ordered.length, ?_, ?_, ?_, ?_, ?_⟩, split⟩
  · exact ordered.length.symm ▸ lt
  · exact (congrArg (List.map Tick.id) queued).trans ordered.ids
  · exact (congrArg (List.filterMap Tick.program) queued).trans ordered.programs
  · have whole := ordered.started
    rw [split, ← singleton_append, ← append_assoc, ← started] at whole
    exact whole.trans queued.symm
  · exact ordered.drained.snoc nofun
  · simp [State.take]

/-- The first callback that waits runs, and is no longer one of those that wait. -/
theorem Ordered.start (domains : Bool) (first : s.queue[s.index]? = some tick) :
    (s.start domains tick).Ordered given ∧ s.waiting = tick :: (s.start domains tick).waiting ∧
      startedIn (s.start domains tick).trace = startedIn s.trace ++ [tick] ∧
      (s.start domains tick).frames =
        .callback domains tick.domain tick.callback.phase :: s.frames := by
  let entered := if domains then s.log (tick.domain.toList.map .entered) else s
  have kept : entered.queue = s.queue ∧ entered.index = s.index ∧
      startedIn entered.trace = startedIn s.trace := by
    cases domains with
    | false => exact ⟨rfl, rfl, rfl⟩
    | true =>
      refine ⟨rfl, rfl, ?_⟩
      cases domain : tick.domain with
      | none => simp [entered, State.log, domain]
      | some d => simp [entered, State.log, domain, startedIn]
  obtain ⟨queue, index, trace⟩ := kept
  have waiting : entered.waiting = s.waiting := by rw [State.waiting, queue, index, State.waiting]
  have first' : entered.queue[entered.index]? = some tick := by
    rw [queue, index]
    exact first
  obtain ⟨taken, split⟩ := (ordered.enter domains tick.domain).take first'
  have same : (s.start domains tick).queue = (entered.take tick).queue ∧
      (s.start domains tick).index = (entered.take tick).index ∧
      (s.start domains tick).length = (entered.take tick).length ∧
      (s.start domains tick).count = (entered.take tick).count ∧
      (s.start domains tick).trace = (entered.take tick).trace ∧
      (s.start domains tick).frames =
        .callback domains tick.domain tick.callback.phase :: s.frames := by
    by_cases microtasks : tick.callback = .runMicrotasks
    · rw [State.start, if_pos microtasks]
      cases domains <;> exact ⟨rfl, rfl, rfl, rfl, rfl, rfl⟩
    · rw [State.start, if_neg microtasks]
      cases domains <;> exact ⟨rfl, rfl, rfl, rfl, rfl, rfl⟩
  obtain ⟨queue', index', length', count', trace', frames'⟩ := same
  refine ⟨taken.of_eq queue' index' length' count' trace', ?_, ?_, frames'⟩
  · rw [State.waiting.eq_1 (s.start domains tick), queue', index', ← waiting]
    exact split
  rw [trace']
  exact (filterMap_append ..).trans (congrArg (· ++ [tick]) trace)

/-! ## `_tickCallback` -/

/-- The loop calls the first callback that waits. -/
theorem Ordered.drain (domains : Bool) :
    (s.drain domains).Ordered given ∧ ∀ {tick rest}, s.waiting = tick :: rest →
      (s.drain domains).waiting = rest ∧
        startedIn (s.drain domains).trace = startedIn s.trace ++ [tick] ∧
        (s.drain domains).frames =
          .callback domains tick.domain tick.callback.phase :: s.frames := by
  rw [State.drain]
  by_cases more : s.index < s.length
  · rw [if_pos more]
    have lt : s.index < s.queue.length := ordered.length ▸ more
    have first := List.getElem?_eq_getElem lt
    obtain ⟨started, split, trace, frames⟩ := ordered.start domains first
    rw [first]
    refine ⟨started, fun split' => ?_⟩
    obtain ⟨rfl, rest⟩ := List.cons.inj (split.symm.trans split')
    exact ⟨rest, trace, frames⟩
  rw [if_neg more]
  refine ⟨ordered.tickDone.1.push _, fun split => ?_⟩
  have beyond : s.queue.length ≤ s.index := ordered.length ▸ Nat.le_of_not_lt more
  simp [State.waiting, drop_eq_nil_of_le beyond] at split

theorem Ordered.scheduleMicrotasks : s.scheduleMicrotasks.Ordered given := by
  rw [State.scheduleMicrotasks]
  split_ifs
  · exact ordered
  have queued := ordered.enqueue .runMicrotasks none
  rw [show (Tick.program ⟨s.count, .runMicrotasks, none⟩).toList = [] from rfl,
    append_nil] at queued
  exact queued.of_eq rfl rfl rfl rfl rfl

theorem Ordered.finishRound (domains : Bool) : (s.finishRound domains).Ordered given := by
  rw [State.finishRound]
  split_ifs with some_
  · exact (ordered.drain domains).1
  refine ordered.log .drained rfl rfl fun _ => ?_
  rw [← length_eq_zero_iff, ← ordered.length]
  exact Decidable.not_not.mp some_

theorem Ordered.emitPending (frame : Frame) {done : State → State}
    (finished : ∀ {s : State}, s.Ordered given → (done s).Ordered given) :
    (s.emitPending frame done).Ordered given := by
  rw [State.emitPending]
  split
  · exact ordered.of_eq rfl rfl rfl rfl rfl
  · exact finished (ordered.of_eq rfl rfl rfl rfl rfl)

theorem Ordered.callbackReturned (domains : Bool) (domain : Option Nat) :
    (s.callbackReturned domains domain).Ordered given := by
  have compacted : (if 10000 < s.index then s.tickDone else s).Ordered given := by
    split_ifs
    · exact ordered.tickDone.1
    · exact ordered
  exact ((compacted.exit domains domain).drain domains).1

theorem Ordered.microtasksCallbackDone (domains : Bool) (domain : Option Nat) (schedule : Bool) :
    (s.microtasksCallbackDone domains domain schedule).Ordered given := by
  have scheduled : (if schedule then s.scheduleMicrotasks else s).Ordered given := by
    split_ifs
    · exact ordered.scheduleMicrotasks
    · exact ordered
  exact scheduled.callbackReturned domains domain

/-! ## Runs -/

theorem Ordered.returns {listeners : Bool}
    (stepped : s.returns listeners = some s') : s'.Ordered given := by
  rw [State.returns] at stepped
  split at stepped
  · cases stepped
  rename_i frame frames same
  have popped : { s with frames := frames }.Ordered given := ordered.of_eq rfl rfl rfl rfl rfl
  split at stepped
  · cases stepped
    exact popped.callbackReturned _ _
  · cases stepped
    split_ifs
    · exact popped.microtasksCallbackDone _ _ _
    · exact popped.emitPending _ fun ordered => ordered.microtasksCallbackDone _ _ _
  · cases stepped
    exact popped.emitPending _ fun ordered => ordered.microtasksCallbackDone _ _ _
  · cases stepped
    exact popped.emitPending _ fun ordered => ordered.finishRound _
  cases stepped
  exact popped.emitPending _ fun ordered => ordered.finishRound _

theorem Ordered.throws (stepped : s.throws = some s') : s'.Ordered given := by
  rw [State.throws] at stepped
  split at stepped
  · cases stepped
  · rename_i frames same
    cases stepped
    have popped : { s with frames := frames }.Ordered given := ordered.of_eq rfl rfl rfl rfl rfl
    exact popped.tickDone.1
  · cases stepped
    exact ordered.of_eq rfl rfl rfl rfl rfl
  cases stepped
  exact ordered.of_eq rfl rfl rfl rfl rfl

/-- A step queues what it gives to `nextTick`, unless the process exits, and keeps the order. -/
theorem Ordered.step {action : Action} (stepped : s.step action = some s') :
    s'.Ordered (given ++ if s.exiting then [] else action.given.toList) := by
  have kept (ordered' : s'.Ordered given) (nothing : action.given = none) :
      s'.Ordered (given ++ if s.exiting then [] else action.given.toList) := by
    rw [nothing, Option.toList_none, ite_self, append_nil]
    exact ordered'
  cases action with
  | nextTick =>
    cases stepped
    rw [State.nextTick]
    split_ifs
    · rw [append_nil]
      exact ordered
    · exact ordered.enqueue _ _
  | tickCallback domains =>
    cases stepped
    exact kept (ordered.drain domains).1 rfl
  | unhandledRejection =>
    cases stepped
    exact kept (Ordered.scheduleMicrotasks (ordered.of_eq rfl rfl rfl rfl rfl)) rfl
  | rejectionHandled | exiting =>
    cases stepped
    exact kept (ordered.of_eq rfl rfl rfl rfl rfl) rfl
  | makeCallback =>
    cases stepped
    refine kept ?_ rfl
    split_ifs with none_
    · have index : s.index = 0 := Nat.eq_zero_of_le_zero (none_ ▸ ordered.le)
      exact ordered.of_eq rfl index.symm rfl rfl rfl
    · exact ordered
  | returns => exact kept (ordered.returns stepped) rfl
  | throws => exact kept (ordered.throws stepped) rfl

end

/-! ## The flag of the process -/

variable {action : Action} {actions : List Action}

theorem exiting_tickDone (s : State) : s.tickDone.exiting = s.exiting := by
  grind [State.tickDone]

theorem exiting_drain (domains : Bool) (s : State) : (s.drain domains).exiting = s.exiting := by
  grind [State.drain, State.start, State.log, State.push, exiting_tickDone]

theorem exiting_emitPending (frame : Frame) {done : State → State}
    (kept : ∀ s, (done s).exiting = s.exiting) (s : State) :
    (s.emitPending frame done).exiting = s.exiting := by
  grind [State.emitPending, State.push]

theorem exiting_microtasksCallbackDone (domains : Bool) (domain : Option Nat) (schedule : Bool)
    (s : State) : (s.microtasksCallbackDone domains domain schedule).exiting = s.exiting := by
  grind [State.microtasksCallbackDone, State.callbackReturned, State.scheduleMicrotasks,
    State.enqueue, State.log, exiting_tickDone, exiting_drain]

theorem exiting_finishRound (domains : Bool) (s : State) :
    (s.finishRound domains).exiting = s.exiting := by
  grind [State.finishRound, State.log, exiting_drain]

/-- Only `process._exiting = true` sets the flag, and nothing clears it. -/
theorem exiting_step (stepped : s.step action = some s') :
    s'.exiting = (s.exiting || action.isExiting) := by
  cases action with
  | nextTick => grind [State.step, State.nextTick, State.enqueue, Action.isExiting]
  | tickCallback => grind [State.step, exiting_drain, Action.isExiting]
  | unhandledRejection =>
    grind [State.step, State.scheduleMicrotasks, State.enqueue, Action.isExiting]
  | rejectionHandled | exiting | makeCallback => grind [State.step, Action.isExiting]
  | returns =>
    rw [State.step, State.returns] at stepped
    have same : s'.exiting = s.exiting := by
      split at stepped
      · cases stepped
      · split at stepped <;> grind [State.callbackReturned, State.log, exiting_drain,
          exiting_tickDone, exiting_emitPending, exiting_microtasksCallbackDone,
          exiting_finishRound]
    rw [same]
    exact (Bool.or_false _).symm
  | throws => grind [State.step, State.throws, exiting_tickDone, Action.isExiting]

theorem given_snoc (actions : List Action) (action : Action) :
    NextTick.given (actions ++ [action]) = NextTick.given actions ++
      if actions.any Action.isExiting then [] else action.given.toList := by
  induction actions with
  | nil => cases action <;> rfl
  | cons first rest ih =>
    rw [cons_append, NextTick.given, NextTick.given, any_cons]
    by_cases exits : first.isExiting = true
    · rw [if_pos exits, if_pos exits, exits, Bool.true_or, if_pos rfl, append_nil]
    rw [if_neg exits, if_neg exits, Bool.eq_false_iff.mpr exits, Bool.false_or, ih, append_assoc]

theorem ordered_initial : initial.Ordered [] := by
  refine ⟨Nat.le_refl _, rfl, rfl, rfl, rfl, always_nil _, fun last => ?_⟩
  cases last

/-- What some actions lead to -/
abbrev Next : State → Action → State → Prop := Permitted step fun _ _ => True

/-- In every run, the ids in the queue and in the trace are those given, in order. -/
theorem Ordered.of_steps (steps : Steps Next initial actions s) :
    s.Ordered (NextTick.given actions) ∧ s.exiting = actions.any Action.isExiting := by
  induction steps with
  | refl => exact ⟨ordered_initial, rfl⟩
  | tail steps stepped ih =>
    obtain ⟨ordered, exiting⟩ := ih
    refine ⟨?_, ?_⟩
    · rw [given_snoc, ← exiting]
      exact ordered.step stepped.2
    · rw [exiting_step stepped.2, exiting, any_append, any_cons, any_nil, Bool.or_false]

end State

end IoJs.NextTick
