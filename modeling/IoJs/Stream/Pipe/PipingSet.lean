import IoJs.Stream.Pipe.Piped

/-!
# The piping set

`state.pipes`, the listeners of `'data'` and the destinations of the chunks agree with the
calls of `pipe()` and `unpipe()`. As `emit('data')` calls the listeners that there were when
it began, a destination that is taken away in the middle still gets the chunk.
-/

namespace IoJs.Stream.Pipe

open IoJs.Library List

variable {Dest : Type}

section Destinations

variable [DecidableEq Dest]

/-! ## Who receives chunks -/

/-- The listeners of `'data'` that a call in progress has yet to call. -/
def Frame.calls : Frame Dest → List (Subscription Dest)
  | .data listeners => listeners
  | _ => []

/-- The listeners to call are subscribed, and no later call will clean them up. -/
structure Receiving (c : Config Dest) : Prop where
  subscribed : ∀ frame ∈ c.stack, ∀ s ∈ frame.calls, s ∈ c.dataListeners
  apart : c.stack.Pairwise fun upper lower => ∀ s ∈ lower.calls, upper.dooms s = false

/-- `unpipe()` does not take away a destination that the chunk in progress has yet to reach. -/
def Between (c : Config Dest) : Action Dest → Prop
  | .unpipe dest =>
    ∀ frame ∈ c.stack, ∀ s ∈ frame.calls, dest.any (fun d => decide (d ≠ s.dest)) = true
  | _ => True

instance (c : Config Dest) (action : Action Dest) : Decidable (Between c action) :=
  match action with
  | .unpipe _ => inferInstanceAs (Decidable (∀ frame ∈ c.stack, ∀ s ∈ frame.calls, _ = true))
  | .pipe _ | .emitData | .ondata _ | .next | .drain _ | .writeElse _ _ | .pause | .resume
  | .onData => inferInstanceAs (Decidable True)

variable {c c' : Config Dest}

theorem Receiving.of_kept (receiving : Receiving c) (kept : Kept c c') : Receiving c' where
  subscribed := by rw [kept.stack, kept.dataListeners]; exact receiving.subscribed
  apart := by rw [kept.stack]; exact receiving.apart

variable {frame : Frame Dest}

theorem Receiving.push (receiving : Receiving c)
    (stack : c'.stack = frame :: c.stack) (listeners : c'.dataListeners = c.dataListeners)
    (own : ∀ s ∈ frame.calls, s ∈ c.dataListeners)
    (free : ∀ lower ∈ c.stack, ∀ s ∈ lower.calls, frame.dooms s = false) : Receiving c' where
  subscribed := by
    intro f member s holds
    rw [stack] at member
    rw [listeners]
    rcases mem_cons.mp member with rfl | old
    · exact own s holds
    · exact receiving.subscribed f old s holds
  apart := by
    rw [stack]
    exact pairwise_cons.mpr ⟨free, receiving.apart⟩

variable {stack : List (Frame Dest)}

section

variable (receiving : Receiving c)
include receiving

theorem Receiving.shrink
    (top : c.stack = frame :: stack) (left : List (Frame Dest)) (single : left.length ≤ 1)
    (less : ∀ f ∈ left, f.calls ⊆ frame.calls ∧ ∀ s, f.dooms s = true → frame.dooms s = true) :
    Receiving { c with stack := left ++ stack } := by
  obtain ⟨free, below⟩ := pairwise_cons.mp (top ▸ receiving.apart)
  constructor
  case subscribed =>
    intro f member s holds
    rcases mem_append.mp member with new | old
    · exact receiving.subscribed frame (by simp [top]) s ((less f new).1 holds)
    · exact receiving.subscribed f (by simp [top, old]) s holds
  case apart =>
    rcases left with _ | ⟨f, _ | ⟨second, more⟩⟩
    · exact below
    · refine pairwise_cons.mpr ⟨?_, below⟩
      intro lower member s holds
      have kept := free lower member s holds
      have back := (less f (mem_singleton_self f)).2 s
      cases now : f.dooms s with
      | false => rfl
      | true => rw [back now] at kept; cases kept
    · simp at single

theorem Receiving.unpipe (inv : Inv c)
    {dest : Option Dest} (between : Between c (.unpipe dest)) : Receiving (unpipe c dest) := by
  obtain ⟨-, done⟩ | ⟨gone, flowing, -, which, -, done⟩ | ⟨rfl, -, done⟩ := unpipe_cases inv dest
  · rw [done]
    exact ⟨receiving.subscribed, receiving.apart⟩
  · rw [done]
    refine receiving.push rfl rfl (fun _ doomed => by cases doomed) ?_
    intro lower member s holds
    have differs : gone ≠ s.dest := by
      have other := between lower member s holds
      rcases which with rfl | ⟨rfl, -⟩
      · simpa using other
      · cases other
    simp only [Frame.dooms, mem_filter, decide_eq_false_iff_not]
    rintro ⟨-, same⟩
    exact differs (of_decide_eq_true same).symm
  rw [done]
  refine receiving.push rfl rfl (fun _ doomed => by cases doomed) ?_
  intro lower member s holds
  have differs := between lower member s holds
  cases differs

theorem Receiving.cleanup {first : Subscription Dest} {listeners : List (Subscription Dest)}
    (top : c.stack = .unpipe (first :: listeners) :: stack) :
    Receiving (cleanup { c with stack := .unpipe listeners :: stack } first) := by
  obtain ⟨free, -⟩ := pairwise_cons.mp (top ▸ receiving.apart)
  have shrunk : Receiving { c with stack := .unpipe listeners :: stack } := by
    refine receiving.shrink top [.unpipe listeners] (Nat.le_refl 1) ?_
    intro f member
    rw [mem_singleton.mp member]
    refine ⟨by simp [Frame.calls], ?_⟩
    intro s doomed
    exact decide_eq_true (mem_cons_of_mem first (of_decide_eq_true doomed))
  have erased : Receiving { c with
      stack := .unpipe listeners :: stack
      drainListeners := c.drainListeners.erase first
      unpipeListeners := c.unpipeListeners.erase first
      dataListeners := c.dataListeners.erase first } := by
    refine ⟨?_, shrunk.apart⟩
    intro f member s holds
    have other : s ≠ first := by
      rintro rfl
      rcases mem_cons.mp member with rfl | old
      · cases holds
      · simpa [Frame.dooms] using free f old s holds
    exact (mem_erase_of_ne other).mpr (shrunk.subscribed f member s holds)
  unfold Pipe.cleanup
  dsimp only
  split
  · exact erased.of_kept (Kept.ondrain _)
  · exact erased

theorem Receiving.unpipeNext {dest : Dest} {dests : List Dest}
    (top : c.stack = .unpipeAll (dest :: dests) :: stack) :
    Receiving (emitUnpipe { c with stack := .unpipeAll dests :: stack } dest) := by
  obtain ⟨free, -⟩ := pairwise_cons.mp (top ▸ receiving.apart)
  have shrunk : Receiving { c with stack := .unpipeAll dests :: stack } := by
    refine receiving.shrink top [.unpipeAll dests] (Nat.le_refl 1) ?_
    intro f member
    rw [mem_singleton.mp member]
    refine ⟨by simp [Frame.calls], ?_⟩
    intro s doomed
    exact decide_eq_true (mem_cons_of_mem dest (of_decide_eq_true doomed))
  refine shrunk.push rfl rfl (fun _ doomed => by cases doomed) ?_
  intro lower member s holds
  rcases mem_cons.mp member with rfl | old
  · cases holds
  have other : s.dest ≠ dest := by
    rintro rfl
    simpa [Frame.dooms] using free lower old s holds
  simp [Frame.dooms, other]

/-- One step leaves subscribed the listeners that are still to be called. -/
theorem Receiving.step {action : Action Dest}
    (inv : Inv c) (between : Between c action) (stepped : step c action = some c') :
    Receiving c' := by
  cases action with
  | pipe dest =>
    cases stepped
    refine Receiving.of_kept ?_ ((Kept.onData _).trans (Kept.resume _))
    refine ⟨?_, receiving.apart⟩
    intro frame member s holds
    exact mem_append_left _ (receiving.subscribed frame member s holds)
  | unpipe dest =>
    cases stepped
    exact receiving.unpipe inv between
  | emitData =>
    cases stepped
    exact receiving.push rfl rfl (fun s holds => holds) (fun _ _ _ _ => rfl)
  | ondata ret =>
    simp only [Pipe.step] at stepped
    split at stepped
    · rename_i first listeners stack top
      cases stepped
      refine Receiving.of_kept ?_ (Kept.ondata _ _ _)
      refine receiving.shrink top [.data listeners] (Nat.le_refl 1) ?_
      intro f member
      rw [mem_singleton.mp member]
      exact ⟨subset_cons_self _ _, fun _ doomed => by cases doomed⟩
    · cases stepped
  | next =>
    simp only [Pipe.step] at stepped
    split at stepped
    case h_3 top => cases stepped; exact receiving.cleanup top
    case h_1 top | h_2 top | h_4 top =>
      cases stepped
      exact receiving.shrink top [] (by simp) (by simp)
    case h_5 top => cases stepped; exact receiving.unpipeNext top
    case h_6 => cases stepped
  | drain dest =>
    simp only [Pipe.step] at stepped
    split at stepped
    · cases stepped
      exact receiving.of_kept (Kept.emitDrain c dest)
    · cases stepped
  | writeElse =>
    cases stepped
    exact ⟨receiving.subscribed, receiving.apart⟩
  | pause =>
    cases stepped
    exact receiving.of_kept (Kept.pause c)
  | resume =>
    cases stepped
    exact receiving.of_kept (Kept.resume c)
  | onData =>
    cases stepped
    refine Receiving.of_kept ?_ (Kept.onData _)
    exact ⟨receiving.subscribed, receiving.apart⟩

end

/-! ## The piping set -/

/-- `state.pipes`, `pipesCount` and, while `unpipe()` is not at work, the listeners of
`'data'` are those of the calls of `pipe()` that are not undone, and a chunk goes to no other
destination. -/
structure PipingSet (c : Config Dest) : Prop where
  count : c.pipesCount = (piped c.trace).length
  pipes : c.pipes = Pipes.of (piped c.trace)
  listeners : (∀ frame ∈ c.stack, frame.unpipes = false) →
    ∀ dest, c.dataListeners.countP (·.dest = dest) = (piped c.trace).count dest
  receives : (∀ frame ∈ c.stack, frame.unpipes = false) →
    ∀ frame ∈ c.stack, ∀ s ∈ frame.calls, s.dest ∈ piped c.trace

/-- **The piping set.** In every run in which `unpipe(dest)` is called for no destination that
is piped twice, a destination is not piped again while `unpipe()` has yet to reach it, and no
destination is taken away while it has yet to get the chunk in progress. -/
theorem piping_set {c : Config Dest}
    (run : Run step (fun c a => Once c a ∧ Between c a) Config.new c) : PipingSet c := by
  have both : Inv c ∧ Receiving c := by
    refine run.invariant (fun c => Inv c ∧ Receiving c) ?_ ?_
    · refine ⟨.new, ⟨?_, List.Pairwise.nil⟩⟩
      intro frame member
      cases member
    intro c c' a holds allowed stepped
    exact ⟨holds.1.step allowed.1 stepped, holds.2.step holds.1 allowed.2 stepped⟩
  obtain ⟨inv, receiving⟩ := both
  refine ⟨inv.count, inv.pipes, inv.countP_eq, ?_⟩
  intro idle frame member s holds
  have subscribed := receiving.subscribed frame member s holds
  rw [← count_pos_iff, ← inv.countP_eq idle, countP_pos_iff]
  exact ⟨s, subscribed, decide_eq_true rfl⟩

end Destinations

/-- Two destinations, one of which is taken away while the other has the chunk. -/
theorem piping_set_of_two :
    ∃ c : Config Nat, c.pipes = .one 8 ∧ c.dataListeners.length = 1 ∧ c.stack = [.data []] ∧
      PipingSet c := by
  obtain ⟨c, run, holds⟩ := Run.exists_of_exec step (fun c a => Once c a ∧ Between c a)
    (Config.new : Config Nat)
    (fun c => c.pipes = .one 8 ∧ c.dataListeners.length = 1 ∧ c.stack = [.data []])
    [.pipe 7, .pipe 8, .emitData, .ondata .more, .unpipe (some 7), .next, .next, .ondata .full]
    (by decide)
  exact ⟨c, holds.1, holds.2.1, holds.2.2, piping_set run⟩

/-- A destination that is piped twice and unpiped once loses both listeners. -/
theorem piped_twice_unpiped_once :
    ∃ c : Config Nat, Run step (fun _ _ => True) Config.new c ∧ c.pipesCount = 1 ∧
      c.dataListeners = [] ∧ ¬ PipingSet c := by
  obtain ⟨c, run, stack, trace, count, listeners⟩ := Run.exists_of_exec step (fun _ _ => True)
    (Config.new : Config Nat)
    (fun c => c.stack = [] ∧ (piped c.trace).count 7 = 1 ∧ c.pipesCount = 1 ∧ c.dataListeners = [])
    [.pipe 7, .pipe 7, .unpipe (some 7), .next, .next, .next] (by decide)
  refine ⟨c, run, count, listeners, ?_⟩
  intro set
  have equal := set.listeners (by simp [stack]) 7
  rw [listeners, trace] at equal
  cases equal

end IoJs.Stream.Pipe
