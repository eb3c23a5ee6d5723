import IoJs.Stream.Pipe.Machine
import Mathlib.Data.List.Nodup

/-!
# The destinations that are piped

Two calls decide what is piped: `pipe(dest)` adds one more `dest`, `unpipe(dest)` takes one
away, `unpipe()` takes all. `state.pipes` and `pipesCount` always say just that.
-/

namespace IoJs.Stream.Pipe

open IoJs.Library List
open Pipe.Frame

variable {Dest : Type}

/-! ## What the calls say -/

/-- `state.pipes` for the destinations that are piped -/
def Pipes.of : List Dest → Pipes Dest
  | [] => .null
  | [dest] => .one dest
  | dests => .many dests

theorem Pipes.add_of (dests : List Dest) (dest : Dest) :
    (Pipes.of dests).add dests.length dest = Pipes.of (dests ++ [dest]) := by
  rcases dests with _ | ⟨first, _ | ⟨second, rest⟩⟩
  · rfl
  · rfl
  · rfl

theorem Pipes.shrink_of {dests : List Dest} (some : dests ≠ []) :
    Pipes.shrink dests dests.length = Pipes.of dests := by
  rcases dests with _ | ⟨first, _ | ⟨second, rest⟩⟩
  · exact absurd rfl some
  · rfl
  · rfl

section Destinations

variable [DecidableEq Dest]

/-- The destinations that are piped, after one more event. -/
def Event.track (dests : List Dest) : Event Dest → List Dest
  | .piped dest => dests ++ [dest]
  | .unpiped (some dest) => dests.erase dest
  | .unpiped none => []
  | _ => dests

/-- The calls of `pipe()` that no call of `unpipe()` has undone. -/
def piped (trace : List (Event Dest)) : List Dest := trace.foldl Event.track []

@[simp] theorem piped_snoc (trace : List (Event Dest)) (event : Event Dest) :
    piped (trace ++ [event]) = event.track (piped trace) := by
  simp [piped]

/-! ## Doomed subscriptions -/

/-- The call in progress will clean up a subscription. -/
def Frame.dooms (subscription : Subscription Dest) : Frame Dest → Bool
  | .data _ => false
  | .unpipe listeners => decide (subscription ∈ listeners)
  | .unpipeAll dests => decide (subscription.dest ∈ dests)

/-- Some call in progress will clean up a subscription. -/
def doomed (stack : List (Frame Dest)) (subscription : Subscription Dest) : Bool :=
  stack.any (dooms subscription)

/-- How many listeners of `'data'` write to a destination, and will go on to. -/
def Config.listening (c : Config Dest) (dest : Dest) : Nat :=
  c.dataListeners.countP fun s => decide (s.dest = dest) && !doomed c.stack s

/-- The subscriptions that a call in progress holds. -/
def Frame.subscriptions : Frame Dest → List (Subscription Dest)
  | .data listeners => listeners
  | .unpipe listeners => listeners
  | .unpipeAll _ => []

/-- What holds of a source at any time. -/
structure Inv (c : Config Dest) : Prop where
  count : c.pipesCount = (piped c.trace).length
  pipes : c.pipes = Pipes.of (piped c.trace)
  unpipeListeners : c.unpipeListeners = c.dataListeners
  drainListeners : c.drainListeners = c.dataListeners
  nodup : c.dataListeners.Nodup
  known : ∀ s ∈ c.dataListeners, s.id < c.nextId
  held : ∀ frame ∈ c.stack, ∀ s ∈ frame.subscriptions, s.id < c.nextId
  listening : ∀ dest, c.listening dest = (piped c.trace).count dest

theorem Inv.new : Inv (Config.new : Config Dest) where
  count := rfl
  pipes := rfl
  unpipeListeners := rfl
  drainListeners := rfl
  nodup := nodup_nil
  known := by intro s member; cases member
  held := by intro frame member; cases member
  listening := by intro dest; rfl

/-! ## What changes nothing here -/

/-- The pipes, the listeners and the calls in progress are as before. -/
structure Kept (c c' : Config Dest) : Prop where
  pipes : c'.pipes = c.pipes
  pipesCount : c'.pipesCount = c.pipesCount
  dataListeners : c'.dataListeners = c.dataListeners
  unpipeListeners : c'.unpipeListeners = c.unpipeListeners
  drainListeners : c'.drainListeners = c.drainListeners
  nextId : c'.nextId = c.nextId
  stack : c'.stack = c.stack
  piped : piped c'.trace = piped c.trace

theorem Kept.refl (c : Config Dest) : Kept c c := ⟨rfl, rfl, rfl, rfl, rfl, rfl, rfl, rfl⟩

variable {c c' : Config Dest}

theorem Kept.trans {c'' : Config Dest} (first : Kept c c') (second : Kept c' c'') : Kept c c'' where
  pipes := second.pipes.trans first.pipes
  pipesCount := second.pipesCount.trans first.pipesCount
  dataListeners := second.dataListeners.trans first.dataListeners
  unpipeListeners := second.unpipeListeners.trans first.unpipeListeners
  drainListeners := second.drainListeners.trans first.drainListeners
  nextId := second.nextId.trans first.nextId
  stack := second.stack.trans first.stack
  piped := second.piped.trans first.piped

theorem Inv.of_kept (inv : Inv c) (kept : Kept c c') : Inv c' where
  count := by rw [kept.pipesCount, kept.piped, inv.count]
  pipes := by rw [kept.pipes, kept.piped, inv.pipes]
  unpipeListeners := by rw [kept.unpipeListeners, kept.dataListeners, inv.unpipeListeners]
  drainListeners := by rw [kept.drainListeners, kept.dataListeners, inv.drainListeners]
  nodup := by rw [kept.dataListeners]; exact inv.nodup
  known := by rw [kept.dataListeners, kept.nextId]; exact inv.known
  held := by rw [kept.stack, kept.nextId]; exact inv.held
  listening := by
    intro dest
    rw [kept.piped, ← inv.listening dest]
    simp only [Config.listening, kept.dataListeners, kept.stack]

section

variable (c : Config Dest)

theorem Kept.resume : Kept c (resume c) := by
  unfold Pipe.resume
  split
  · exact .refl c
  · exact ⟨rfl, rfl, rfl, rfl, rfl, rfl, rfl, rfl⟩

theorem Kept.pause : Kept c (pause c) := ⟨rfl, rfl, rfl, rfl, rfl, rfl, rfl, rfl⟩

theorem Kept.onData : Kept c (onData c) := by
  unfold Pipe.onData
  split
  · exact .refl c
  · exact .resume c

theorem Kept.ondrain : Kept c (ondrain c) := by
  simp only [Pipe.ondrain]
  split
  · exact ⟨rfl, rfl, rfl, rfl, rfl, rfl, rfl, piped_snoc c.trace .flow⟩
  · exact ⟨rfl, rfl, rfl, rfl, rfl, rfl, rfl, rfl⟩

theorem Kept.ondata (subscription : Subscription Dest) (ret : Answer) :
    Kept c (ondata c subscription ret) := by
  have logged : Pipe.piped (c.trace ++ [.wrote subscription.dest ret]) = Pipe.piped c.trace :=
    piped_snoc c.trace _
  simp only [Pipe.ondata]
  split
  · exact ⟨rfl, rfl, rfl, rfl, rfl, rfl, rfl, logged⟩
  · exact ⟨rfl, rfl, rfl, rfl, rfl, rfl, rfl, logged⟩

theorem Kept.emitDrain (dest : Dest) : Kept c (emitDrain c dest) := by
  have all : ∀ (listeners : List (Subscription Dest)) (c : Config Dest),
      Kept c (listeners.foldl (fun c _ => Pipe.ondrain c) c) := by
    intro listeners
    induction listeners with
    | nil => exact fun c => .refl c
    | cons first rest ih => exact fun c => (Kept.ondrain c).trans (ih _)
  have logged : Kept c { c with trace := c.trace ++ [.drained dest] } :=
    ⟨rfl, rfl, rfl, rfl, rfl, rfl, rfl, piped_snoc c.trace _⟩
  exact logged.trans (all _ _)

end

/-! ## Calls in progress -/

@[simp] theorem doomed_cons (frame : Frame Dest) (stack : List (Frame Dest))
    (s : Subscription Dest) :
    doomed (frame :: stack) s = (frame.dooms s || doomed stack s) := rfl

variable {stack : List (Frame Dest)}

theorem Inv.withStack (inv : Inv c)
    (same : ∀ s ∈ c.dataListeners, doomed stack s = doomed c.stack s)
    (held : ∀ frame ∈ stack, ∀ s ∈ frame.subscriptions, s.id < c.nextId) :
    Inv { c with stack } where
  count := inv.count
  pipes := inv.pipes
  unpipeListeners := inv.unpipeListeners
  drainListeners := inv.drainListeners
  nodup := inv.nodup
  known := inv.known
  held := held
  listening := by
    intro dest
    rw [← inv.listening dest]
    apply countP_congr
    intro s member
    rw [same s member]

theorem Inv.pop (inv : Inv c) {frame : Frame Dest}
    (top : c.stack = frame :: stack) (left : List (Frame Dest)) (spent : ∀ s, frame.dooms s = false)
    (rest : ∀ f ∈ left, (∀ s, f.dooms s = false) ∧ f.subscriptions ⊆ frame.subscriptions) :
    Inv { c with stack := left ++ stack } := by
  apply inv.withStack
  · intro s _
    have none : doomed left s = false := by grind [doomed]
    simp only [top, doomed_cons, spent s, Bool.false_or]
    rw [doomed, any_append, ← doomed, none, Bool.false_or, doomed]
  intro f member s holds
  rcases mem_append.mp member with new | old
  · exact inv.held frame (by simp [top]) s ((rest f new).2 holds)
  · exact inv.held f (by simp [top, old]) s holds

variable {dest : Dest}

theorem Inv.unpipeNext (inv : Inv c) {dests : List Dest}
    (top : c.stack = .unpipeAll (dest :: dests) :: stack) :
    Inv (emitUnpipe { c with stack := .unpipeAll dests :: stack } dest) := by
  refine inv.withStack ?_ ?_
  · intro s member
    simp only [doomed_cons, top, dooms, inv.unpipeListeners, mem_filter, member,
      true_and, decide_eq_true_eq, mem_cons, Bool.decide_or, Bool.or_assoc]
  intro f member s holds
  rcases mem_cons.mp member with rfl | member
  · have listener := (mem_filter.mp holds).1
    exact inv.known s (inv.unpipeListeners ▸ listener)
  rcases mem_cons.mp member with rfl | old
  · cases holds
  · exact inv.held f (by simp [top, old]) s holds

theorem Inv.emitData (inv : Inv c) : Inv { c with stack := .data c.dataListeners :: c.stack } := by
  refine inv.withStack (fun s _ => by simp [dooms]) ?_
  intro f member s holds
  rcases mem_cons.mp member with rfl | old
  · exact inv.known s holds
  · exact inv.held f old s holds

/-! ## `pipe()`, `unpipe()` and `cleanup` -/

/-- The loop of `unpipe()` has yet to reach a destination. -/
def Frame.awaits (dest : Dest) : Frame Dest → Bool
  | .unpipeAll dests => decide (dest ∈ dests)
  | _ => false

section

variable (inv : Inv c)
include inv

theorem Inv.not_doomed_new (free : ∀ frame ∈ c.stack, frame.awaits dest = false) :
    doomed c.stack ⟨c.nextId, dest⟩ = false := by
  simp only [doomed, List.any_eq_false]
  intro frame member
  have bound := inv.held frame member
  cases frame with
  | data => simp [dooms]
  | unpipe =>
    simp only [dooms, decide_eq_true_eq]
    intro holds
    exact absurd (bound _ holds) (Nat.lt_irrefl _)
  | unpipeAll => simpa [dooms, awaits] using free _ member

theorem Inv.pipe (free : ∀ frame ∈ c.stack, frame.awaits dest = false) : Inv (pipe c dest) := by
  have fresh : ∀ s ∈ c.dataListeners, s ≠ ⟨c.nextId, dest⟩ := by
    rintro s member rfl
    exact absurd (inv.known _ member) (Nat.lt_irrefl _)
  refine Inv.of_kept ?_ ((Kept.onData _).trans (Kept.resume _))
  constructor
  case count => simp [inv.count, Event.track]
  case pipes =>
    show c.pipes.add c.pipesCount dest = _
    rw [inv.pipes, inv.count, piped_snoc]
    exact Pipes.add_of _ _
  case unpipeListeners => simp [inv.unpipeListeners]
  case drainListeners => simp [inv.drainListeners]
  case nodup =>
    refine List.Nodup.append inv.nodup (nodup_singleton _) ?_
    intro s member new
    exact fresh s member (mem_singleton.mp new)
  case known =>
    intro s member
    rcases mem_append.mp member with old | new
    · exact Nat.lt_succ_of_lt (inv.known s old)
    · grind
  case held =>
    intro frame member s holds
    exact Nat.lt_succ_of_lt (inv.held frame member s holds)
  case listening =>
    intro dest'
    simp only [Config.listening, countP_append, piped_snoc, Event.track, count_append]
    congr 1
    · exact inv.listening dest'
    · simp [inv.not_doomed_new free, count_singleton, countP_singleton]

theorem doomed_emitUnpipe {s : Subscription Dest} (member : s ∈ c.dataListeners) :
    doomed (.unpipe (c.unpipeListeners.filter (·.dest = dest)) :: c.stack) s =
      (decide (s.dest = dest) || doomed c.stack s) := by
  simp [dooms, inv.unpipeListeners, member]

/-- What `unpipe()` does: nothing; or one destination is taken away and hears of it; or all
are, and will. -/
theorem unpipe_cases (dest : Option Dest) : let rest := piped (c.trace ++ [.unpiped dest])
    (rest = piped c.trace ∧ unpipe c dest = { c with trace := c.trace ++ [.unpiped dest] }) ∨
    (∃ gone flowing, gone ∈ piped c.trace ∧
      (dest = some gone ∨ dest = none ∧ piped c.trace = [gone]) ∧
      rest = (piped c.trace).erase gone ∧
      unpipe c dest = emitUnpipe { c with
        trace := c.trace ++ [.unpiped dest]
        pipes := Pipes.of rest
        pipesCount := rest.length
        flowing } gone) ∨
    (dest = none ∧ rest = [] ∧ unpipe c dest = { c with
        trace := c.trace ++ [.unpiped dest]
        pipes := .null
        pipesCount := 0
        flowing := some false
        stack := .unpipeAll (piped c.trace) :: c.stack }) := by
  intro rest
  have pipes := inv.pipes
  have count := inv.count
  have rest_eq : rest = Event.track (piped c.trace) (.unpiped dest) := piped_snoc _ _
  -- the three representations of `state.pipes`
  rcases dests : piped c.trace with _ | ⟨first, _ | ⟨second, others⟩⟩
  · left
    rw [dests] at rest_eq count
    refine ⟨?_, by simp only [unpipe, count, length_nil]⟩
    cases dest with
    | none => exact rest_eq
    | some dest => simpa [Event.track] using rest_eq
  · rw [dests] at rest_eq count pipes
    by_cases other : dest.any (· ≠ first) = true
    · left
      refine ⟨?_, by simp only [unpipe, count, pipes, Pipes.of, length_singleton, other, if_true]⟩
      obtain ⟨dest, rfl, differs⟩ := (Option.any_eq_true _ _).mp other
      rw [rest_eq, Event.track, erase_of_not_mem]
      simpa using differs
    right
    left
    have empty : rest = [] := by
      rw [rest_eq]
      cases dest with
      | none => rfl
      | some dest =>
        have same : dest = first := by simpa using other
        simp [Event.track, same]
    have which : dest = some first ∨ dest = none ∧ [first] = [first] := by
      cases dest with
      | none => exact .inr ⟨rfl, rfl⟩
      | some dest => exact .inl (by simpa using other)
    refine ⟨first, some false, mem_singleton_self _, which, by simp [empty], ?_⟩
    have gone : dest.getD first = first := by grind
    simp only [unpipe, count, pipes, Pipes.of, length_singleton, other, gone, empty, length_nil]
    rfl
  rw [dests] at rest_eq count pipes
  cases dest with
  | none =>
    right
    right
    refine ⟨rfl, rest_eq, ?_⟩
    simp [unpipe, count, pipes, Pipes.of]
  | some dest =>
    by_cases member : dest ∈ first :: second :: others
    · right
      left
      have shorter : rest.length = (first :: second :: others).length - 1 := by
        rw [rest_eq, Event.track, length_erase_of_mem member]
      have some : rest ≠ [] := by grind
      refine ⟨dest, c.flowing, member, .inl rfl, rest_eq, ?_⟩
      rw [← Pipes.shrink_of some, shorter, rest_eq]
      simp [unpipe, count, pipes, Pipes.of, member, Event.track]
    left
    constructor
    · rw [rest_eq, Event.track, erase_of_not_mem member]
    · simp [unpipe, count, pipes, Pipes.of, member]

theorem listening_emitUnpipe {gone : Dest} (once : (piped c.trace).count gone ≤ 1) (dest : Dest) :
    (emitUnpipe c gone).listening dest = ((piped c.trace).erase gone).count dest := by
  rw [count_erase, ← inv.listening dest]
  by_cases same : dest = gone
  · subst same
    have empty : (emitUnpipe c dest).listening dest = 0 := by
      apply countP_eq_zero.mpr
      intro s member
      simp only [emitUnpipe, doomed_emitUnpipe inv member]
      by_cases here : s.dest = dest
      · simp [here]
      · simp [here]
    rw [empty, inv.listening dest]
    simp only [beq_self_eq_true, if_true]
    omega
  have other : (gone == dest) = false := by simpa using fun h => same h.symm
  rw [other]
  apply countP_congr
  intro s member
  simp only [emitUnpipe, doomed_emitUnpipe inv member]
  by_cases here : s.dest = dest
  · simp [here, same]
  · simp [here]

theorem Inv.unpipe {dest : Option Dest}
    (once : ∀ d, dest = some d → (piped c.trace).count d ≤ 1) : Inv (unpipe c dest) := by
  obtain ⟨same, done⟩ | ⟨gone, flowing, member, which, rest, done⟩ | ⟨rfl, rest, done⟩ :=
    unpipe_cases inv dest
  · rw [done]
    exact inv.of_kept ⟨rfl, rfl, rfl, rfl, rfl, rfl, rfl, same⟩
  · have single : (piped c.trace).count gone ≤ 1 := by
      rcases which with rfl | ⟨-, only⟩
      · exact once gone rfl
      · simp [only]
    rw [done]
    constructor
    case count => rfl
    case pipes => rfl
    case unpipeListeners => exact inv.unpipeListeners
    case drainListeners => exact inv.drainListeners
    case nodup => exact inv.nodup
    case known => exact inv.known
    case held =>
      intro frame member s holds
      rcases mem_cons.mp member with rfl | old
      · exact inv.known s (inv.unpipeListeners ▸ (mem_filter.mp holds).1)
      · exact inv.held frame old s holds
    case listening =>
      intro dest'
      refine Eq.trans ?_ (congrArg (List.count dest') rest.symm)
      exact listening_emitUnpipe inv single dest'
  rw [done]
  constructor
  case count => exact (congrArg List.length rest).symm
  case pipes => exact (congrArg Pipes.of rest).symm
  case unpipeListeners => exact inv.unpipeListeners
  case drainListeners => exact inv.drainListeners
  case nodup => exact inv.nodup
  case known => exact inv.known
  case held =>
    intro frame member s holds
    rcases mem_cons.mp member with rfl | old
    · cases holds
    · exact inv.held frame old s holds
  case listening =>
    intro dest'
    refine Eq.trans ?_ (congrArg (List.count dest') rest.symm)
    apply countP_eq_zero.mpr
    -- a listener that is not doomed yet writes to a destination that is piped
    intro s member
    by_cases piping : s.dest ∈ piped c.trace
    · simp [dooms, piping]
    have none := (inv.listening s.dest).trans (count_eq_zero_of_not_mem piping)
    have out := countP_eq_zero.mp none s member
    have gone : doomed c.stack s = true := by simpa using out
    simp [gone]

theorem Inv.cleanup {first : Subscription Dest} {listeners : List (Subscription Dest)}
    (top : c.stack = .unpipe (first :: listeners) :: stack) :
    Inv (cleanup { c with stack := .unpipe listeners :: stack } first) := by
  have erased : Inv { c with
      stack := .unpipe listeners :: stack
      drainListeners := c.drainListeners.erase first
      unpipeListeners := c.unpipeListeners.erase first
      dataListeners := c.dataListeners.erase first } := by
    constructor
    case count => exact inv.count
    case pipes => exact inv.pipes
    case unpipeListeners => simp only [inv.unpipeListeners]
    case drainListeners => simp only [inv.drainListeners]
    case nodup => exact inv.nodup.erase first
    case known => exact fun s member => inv.known s (mem_of_mem_erase member)
    case held =>
      intro frame member s holds
      rcases mem_cons.mp member with rfl | old
      · exact inv.held (.unpipe (first :: listeners)) (by simp [top]) s
          (mem_cons_of_mem first holds)
      · exact inv.held frame (by simp [top, old]) s holds
    case listening =>
      intro dest
      rw [← inv.listening dest]
      simp only [Config.listening, inv.nodup.erase_eq_filter, countP_filter, top]
      apply countP_congr
      intro s _
      by_cases here : s = first
      · simp [here, dooms]
      · simp [here, dooms]
  unfold Pipe.cleanup
  dsimp only
  split
  · exact erased.of_kept (Kept.ondrain _)
  · exact erased

end

/-! ## Between the calls -/

/-- The call in progress is of `unpipe()`. -/
def Frame.unpipes : Frame Dest → Bool
  | .data _ => false
  | _ => true

theorem doomed_eq_false (idle : ∀ frame ∈ stack, frame.unpipes = false) (s : Subscription Dest) :
    doomed stack s = false := by
  simp only [doomed, List.any_eq_false]
  intro frame member
  have quiet := idle frame member
  cases frame with
  | data => simp [dooms]
  | unpipe => cases quiet
  | unpipeAll => cases quiet

theorem Inv.countP_eq (inv : Inv c)
    (idle : ∀ frame ∈ c.stack, frame.unpipes = false) (dest : Dest) :
    c.dataListeners.countP (·.dest = dest) = (piped c.trace).count dest := by
  rw [← inv.listening dest]
  apply countP_congr
  intro s _
  simp [doomed_eq_false idle s]

/-! ## One step -/

/-- `unpipe(dest)` is called for no destination that is piped twice, and `pipe(dest)` for none
that the loop of `unpipe()` has yet to reach. -/
def Once (c : Config Dest) : Action Dest → Prop
  | .unpipe (some dest) => (piped c.trace).count dest ≤ 1
  | .pipe dest => ∀ frame ∈ c.stack, frame.awaits dest = false
  | _ => True

instance (c : Config Dest) (action : Action Dest) : Decidable (Once c action) :=
  match action with
  | .unpipe (some dest) => inferInstanceAs (Decidable ((piped c.trace).count dest ≤ 1))
  | .pipe dest => inferInstanceAs (Decidable (∀ frame ∈ c.stack, frame.awaits dest = false))
  | .unpipe none | .emitData | .ondata _ | .next | .drain _ | .writeElse _ _ | .pause | .resume
  | .onData => inferInstanceAs (Decidable True)

/-- One step keeps what holds of a source, if nothing piped twice is taken away. -/
theorem Inv.step {action : Action Dest} (inv : Inv c)
    (once : Once c action) (stepped : step c action = some c') : Inv c' := by
  cases action with
  | pipe dest =>
    cases stepped
    exact inv.pipe once
  | unpipe dest =>
    cases stepped
    refine inv.unpipe ?_
    rintro d rfl
    exact once
  | emitData =>
    cases stepped
    exact inv.emitData
  | ondata ret =>
    simp only [Pipe.step] at stepped
    split at stepped
    · rename_i first listeners stack top
      cases stepped
      refine Inv.of_kept ?_ (Kept.ondata _ _ _)
      refine inv.pop top [.data listeners] (fun _ => rfl) ?_
      intro f member
      rw [mem_singleton.mp member]
      exact ⟨fun _ => rfl, subset_cons_self _ _⟩
    · cases stepped
  | next =>
    simp only [Pipe.step] at stepped
    split at stepped
    case h_1 top => cases stepped; exact inv.pop top [] (fun _ => rfl) (by simp)
    case h_3 top => cases stepped; exact inv.cleanup top
    case h_2 top | h_4 top =>
      cases stepped
      exact inv.pop top [] (fun _ => by simp [dooms]) (by simp)
    case h_5 top => cases stepped; exact inv.unpipeNext top
    case h_6 => cases stepped
  | drain dest =>
    simp only [Pipe.step] at stepped
    split at stepped
    · cases stepped
      exact inv.of_kept (Kept.emitDrain c dest)
    · cases stepped
  | writeElse =>
    cases stepped
    exact inv.of_kept ⟨rfl, rfl, rfl, rfl, rfl, rfl, rfl, piped_snoc _ _⟩
  | pause =>
    cases stepped
    exact inv.of_kept (Kept.pause c)
  | resume =>
    cases stepped
    exact inv.of_kept (Kept.resume c)
  | onData =>
    cases stepped
    refine inv.of_kept (Kept.trans ?_ (Kept.onData _))
    exact ⟨rfl, rfl, rfl, rfl, rfl, rfl, rfl, rfl⟩

end Destinations

end IoJs.Stream.Pipe
