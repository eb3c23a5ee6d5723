import IoJs.Stream.Pipe.Piped
import Mathlib.Data.List.Perm.Basic

/-!
# Backpressure

`awaitDrain` counts the answers false of `write()`, and counts back for each `'drain'` of a
piped destination and for each destination that is unpiped while it needs a drain. It is
the number of piped destinations that owe a drain as long as these are the same thing: a
destination that owes one gets no more chunks, and nobody else fills it.
-/

namespace IoJs.Stream.Pipe

open IoJs.Library List
open Config

theorem countP_change {α : Type} {l : List α} (nodup : l.Nodup) {a : α} (member : a ∈ l)
    {p q : α → Bool} (agree : ∀ b ∈ l, b ≠ a → p b = q b) :
    l.countP p + (q a).toNat = l.countP q + (p a).toNat := by
  induction l with
  | nil => cases member
  | cons b rest ih =>
    obtain ⟨fresh, nodup⟩ := nodup_cons.mp nodup
    by_cases here : b = a
    · subst here
      have same : rest.countP p = rest.countP q := by
        apply countP_congr
        intro x inside
        rw [agree x (mem_cons_of_mem b inside) (fun h => fresh (h ▸ inside))]
      rw [countP_cons, countP_cons, same]
      cases p b <;> cases q b <;> simp
    have inside : a ∈ rest := (mem_cons.mp member).resolve_left (fun h => here h.symm)
    have rest_eq := ih nodup inside fun x h => agree x (mem_cons_of_mem b h)
    rw [countP_cons, countP_cons, agree b mem_cons_self here]
    omega

variable {Dest : Type} [DecidableEq Dest]
variable {c c' : Config Dest} {dest : Dest} {first : Subscription Dest} {action : Action Dest}

/-- A destination has returned false to the source and has not drained since. -/
def owes (trace : List (Event Dest)) (dest : Dest) : Bool :=
  trace.foldl (fun owed event =>
    match event with
    | .wrote d ret => if d = dest ∧ ret ≠ .more then true else owed
    | .drained d => if d = dest then false else owed
    | _ => owed) false

section

variable (trace : List (Event Dest))

theorem owes_wrote (d dest : Dest) (ret : Answer) : owes (trace ++ [.wrote d ret]) dest =
    if d = dest ∧ ret ≠ .more then true else owes trace dest := by
  simp only [owes, foldl_append, foldl_cons, foldl_nil]

theorem owes_drained (d dest : Dest) :
    owes (trace ++ [.drained d]) dest = if d = dest then false else owes trace dest := by
  simp only [owes, foldl_append, foldl_cons, foldl_nil]

@[simp] theorem owes_flow : owes (trace ++ [.flow]) = owes trace := by
  funext dest
  simp only [owes, foldl_append, foldl_cons, foldl_nil]

@[simp] theorem owes_piped (d : Dest) : owes (trace ++ [.piped d]) = owes trace := by grind [owes]

@[simp] theorem owes_unpiped (d : Option Dest) : owes (trace ++ [.unpiped d]) = owes trace := by
  grind [owes]

@[simp] theorem owes_wroteElse (d : Dest) (ret : Answer) :
    owes (trace ++ [.wroteElse d ret]) = owes trace := by
  funext dest
  simp only [owes, foldl_append, foldl_cons, foldl_nil]

end

/-- The destinations that are listened for. -/
def Config.dests (c : Config Dest) : List Dest := c.dataListeners.map (·.dest)

/-- Some destination that is listened for owes a drain. -/
def Config.waits (c : Config Dest) : Bool := c.dests.any (owes c.trace)

/-- The subscription whose `ondata` runs next. -/
def Config.calling (c : Config Dest) : Option (Subscription Dest) :=
  match c.stack with
  | .data (first :: _) :: _ => some first
  | _ => none

/-- The subscription whose `cleanup` runs next. -/
def Config.cleaning (c : Config Dest) : Option (Subscription Dest) :=
  match c.stack with
  | .unpipe (first :: _) :: _ => some first
  | _ => none

/-- The count is exact, and each destination has one subscription. -/
structure Balanced (c : Config Dest) : Prop where
  distinct : c.dests.Nodup
  awaitDrain : c.awaitDrain = c.dests.countP (owes c.trace)

/-- The drains that `awaitDrain` counts back are those that are owed:

* a destination is piped once at a time, and owes no drain from before;
* `write()` returns false for a destination that is still subscribed and owes no drain yet;
* a piped destination that drains owes a drain, or none does;
* a destination whose subscription is removed needs a drain just if it owes one, or none does.
-/
def Accurate (c : Config Dest) : Action Dest → Prop
  | .pipe dest =>
    (∀ frame ∈ c.stack, frame.awaits dest = false) ∧ dest ∉ c.dests ∧ owes c.trace dest = false
  | .ondata ret =>
    ret = .more ∨ ∀ first ∈ c.calling, first ∈ c.dataListeners ∧ owes c.trace first.dest = false
  | .drain dest => dest ∈ c.dests → owes c.trace dest = true ∨ c.waits = false
  | .next =>
    ∀ first ∈ c.cleaning, c.waits = true → (needDrain c.trace first.dest = true ↔
        first ∈ c.dataListeners ∧ owes c.trace first.dest = true)
  | _ => True

/-! ## One step -/

section

variable (balanced : Balanced c)
include balanced

theorem Balanced.of_eq
    (listeners : c'.dataListeners = c.dataListeners) (count : c'.awaitDrain = c.awaitDrain)
    (owed : owes c'.trace = owes c.trace) : Balanced c' where
  distinct := by rw [dests, listeners]; exact balanced.distinct
  awaitDrain := by rw [count, owed, dests, listeners]; exact balanced.awaitDrain

theorem Balanced.waits_iff : c.waits = true ↔ c.awaitDrain ≠ 0 := by
  simp [balanced.awaitDrain, waits, Ne]

theorem Balanced.resume : Balanced (resume c) := by
  unfold Pipe.resume
  split
  · exact balanced
  · exact balanced.of_eq rfl rfl rfl

theorem Balanced.onData : Balanced (onData c) := by
  unfold Pipe.onData
  split
  · exact balanced
  · exact balanced.resume

end

omit [DecidableEq Dest] in
theorem ondrain_awaitDrain (c : Config Dest) : (ondrain c).awaitDrain = c.awaitDrain - 1 := by
  simp only [ondrain]
  split <;> rfl

theorem owes_ondrain (c : Config Dest) : owes (ondrain c).trace = owes c.trace := by
  simp only [ondrain]
  split
  · exact owes_flow c.trace
  · rfl

theorem Balanced.ondrain (distinct : c.dests.Nodup)
    (one : c.awaitDrain = c.dests.countP (owes c.trace) + 1) : Balanced (ondrain c) := by
  have listeners := (Kept.ondrain c).dataListeners
  constructor
  case distinct => rw [dests, listeners]; exact distinct
  case awaitDrain =>
    rw [ondrain_awaitDrain, owes_ondrain, dests, listeners, one]
    rfl

theorem Balanced.pipe (balanced : Balanced c)
    (new : dest ∉ c.dests) (paid : owes c.trace dest = false) : Balanced (pipe c dest) := by
  refine Balanced.resume (Balanced.onData ?_)
  constructor
  case distinct =>
    simp only [dests, map_append, map_cons, map_nil]
    refine List.Nodup.append balanced.distinct (nodup_singleton _) ?_
    intro d member same
    exact new (mem_singleton.mp same ▸ member)
  case awaitDrain => simpa [dests, owes_piped, paid] using balanced.awaitDrain

theorem Balanced.ondata (balanced : Balanced c) {ret : Answer}
    (paid : ret = .more ∨ first ∈ c.dataListeners ∧ owes c.trace first.dest = false) :
    Balanced (ondata c first ret) := by
  by_cases more : ret = .more
  · simp only [Pipe.ondata, more, if_true]
    refine balanced.of_eq rfl rfl ?_
    funext dest
    simp [owes_wrote]
  obtain ⟨subscribed, paid⟩ := paid.resolve_left more
  have member : first.dest ∈ c.dests := List.mem_map_of_mem subscribed
  simp only [Pipe.ondata, more, if_false]
  constructor
  case distinct => exact balanced.distinct
  case awaitDrain =>
    have change := countP_change balanced.distinct member
      (p := owes (c.trace ++ [.wrote first.dest ret])) (q := owes c.trace) (by
        intro d _ other
        rw [owes_wrote, if_neg (fun h => other h.1.symm)])
    rw [paid, owes_wrote, if_pos ⟨rfl, more⟩] at change
    show c.awaitDrain + 1 = c.dests.countP (owes (c.trace ++ [.wrote first.dest ret]))
    rw [balanced.awaitDrain]
    simpa using change.symm

omit [DecidableEq Dest] in
theorem filter_dest [DecidableEq Dest] {listeners : List (Subscription Dest)}
    (distinct : (listeners.map (·.dest)).Nodup) {s : Subscription Dest} (member : s ∈ listeners) :
    listeners.filter (·.dest = s.dest) = [s] := by
  induction listeners with
  | nil => cases member
  | cons first rest ih =>
    obtain ⟨fresh, distinct⟩ := nodup_cons.mp distinct
    rcases mem_cons.mp member with rfl | inside
    · have others : rest.filter (·.dest = s.dest) = [] := by
        apply filter_eq_nil_iff.mpr
        intro x inside same
        exact fresh (List.mem_map.mpr ⟨x, inside, of_decide_eq_true same⟩)
      simp [others]
    · have other : first.dest ≠ s.dest := by
        intro same
        exact fresh (List.mem_map.mpr ⟨s, inside, same.symm⟩)
      simp [other, ih distinct inside]

theorem emitDrain_of_mem (inv : Inv c) (balanced : Balanced c) (member : dest ∈ c.dests) :
    emitDrain c dest = ondrain { c with trace := c.trace ++ [.drained dest] } := by
  obtain ⟨s, listener, rfl⟩ := List.mem_map.mp member
  have single := filter_dest balanced.distinct listener
  simp [emitDrain, inv.drainListeners, single]

theorem emitDrain_of_not_mem (inv : Inv c) (outside : dest ∉ c.dests) :
    emitDrain c dest = { c with trace := c.trace ++ [.drained dest] } := by
  have none : c.dataListeners.filter (·.dest = dest) = [] := by
    apply filter_eq_nil_iff.mpr
    intro s listener same
    exact outside (List.mem_map.mpr ⟨s, listener, of_decide_eq_true same⟩)
  simp [emitDrain, inv.drainListeners, none]

theorem Balanced.emitDrain (balanced : Balanced c) (inv : Inv c)
    (owed : dest ∈ c.dests → owes c.trace dest = true ∨ c.waits = false) :
    Balanced (emitDrain c dest) := by
  have other : ∀ d ∈ c.dests, d ≠ dest → owes (c.trace ++ [.drained dest]) d = owes c.trace d := by
    grind [owes_drained]
  by_cases member : dest ∈ c.dests
  · have change := countP_change balanced.distinct member
      (p := owes (c.trace ++ [.drained dest])) (q := owes c.trace) other
    rw [owes_drained, if_pos rfl, ← balanced.awaitDrain] at change
    rw [emitDrain_of_mem inv balanced member]
    rcases owed member with owing | none
    · rw [owing] at change
      exact Balanced.ondrain balanced.distinct change.symm
    -- nothing is awaited, and `ondrain` leaves the count at zero
    have zero : c.awaitDrain = 0 := by grind [balanced.waits_iff.mpr]
    have kept := Kept.ondrain { c with trace := c.trace ++ [.drained dest] }
    constructor
    case distinct => rw [dests, kept.dataListeners]; exact balanced.distinct
    case awaitDrain =>
      rw [ondrain_awaitDrain, owes_ondrain, dests, kept.dataListeners]
      show c.awaitDrain - 1 = c.dests.countP (owes (c.trace ++ [.drained dest]))
      simp only [Bool.toNat_false] at change
      omega
  rw [emitDrain_of_not_mem inv member]
  constructor
  case distinct => exact balanced.distinct
  case awaitDrain =>
    refine balanced.awaitDrain.trans ?_
    apply countP_congr
    intro d inside
    rw [other d inside (fun h => member (h ▸ inside))]

theorem Balanced.cleanup (balanced : Balanced c)
    (needed : c.waits = true → (needDrain c.trace first.dest = true ↔
      first ∈ c.dataListeners ∧ owes c.trace first.dest = true)) :
    Balanced (cleanup c first) := by
  have distinct : (dests { c with dataListeners := c.dataListeners.erase first }).Nodup :=
    List.Nodup.sublist ((erase_sublist).map _) balanced.distinct
  have waits : c.waits = true ↔ c.awaitDrain ≠ 0 := balanced.waits_iff
  have count : c.awaitDrain = ((c.dataListeners.erase first).map (·.dest)).countP (owes c.trace) +
      if first ∈ c.dataListeners ∧ owes c.trace first.dest = true then 1 else 0 := by
    by_cases member : first ∈ c.dataListeners
    · have split := ((perm_cons_erase member).map (·.dest)).countP_eq (owes c.trace)
      rw [balanced.awaitDrain, dests, split, map_cons, countP_cons]
      simp only [member, true_and]
    rw [erase_of_not_mem member, if_neg (fun owing => member owing.1), Nat.add_zero]
    exact balanced.awaitDrain
  simp only [Pipe.cleanup]
  split
  · rename_i drains
    have owing := (needed (waits.mpr drains.1)).mp drains.2
    refine Balanced.ondrain distinct ?_
    rw [if_pos owing] at count
    exact count
  rename_i quiet
  refine ⟨distinct, ?_⟩
  have none : ¬ (first ∈ c.dataListeners ∧ owes c.trace first.dest = true) := by
    intro owing
    have waiting : c.waits = true :=
      List.any_eq_true.mpr ⟨first.dest, List.mem_map_of_mem owing.1, owing.2⟩
    exact quiet ⟨waits.mp waiting, (needed waiting).mpr owing⟩
  rw [if_neg none] at count
  exact count

theorem Balanced.unpipe (balanced : Balanced c) (inv : Inv c)
    (dest : Option Dest) : Balanced (unpipe c dest) := by
  obtain ⟨-, done⟩ | ⟨gone, flowing, -, -, -, done⟩ | ⟨rfl, -, done⟩ := unpipe_cases inv dest
  · rw [done]
    exact balanced.of_eq rfl rfl (owes_unpiped _ _)
  · rw [done]
    exact balanced.of_eq rfl rfl (owes_unpiped _ _)
  rw [done]
  exact balanced.of_eq rfl rfl (owes_unpiped _ _)

theorem Accurate.once (inv : Inv c)
    (balanced : Balanced c) (accurate : Accurate c action) : Once c action := by
  cases action with
  | pipe dest => exact accurate.1
  | unpipe dest =>
    cases dest with
    | none => trivial
    | some dest =>
      have bound : c.listening dest ≤ c.dests.count dest := by
        rw [dests, count_eq_countP, countP_map]
        apply countP_mono_left
        intro s _ holds
        simp only [Bool.and_eq_true, decide_eq_true_eq] at holds
        simpa using holds.1
      have single := nodup_iff_count_le_one.mp balanced.distinct dest
      show (piped c.trace).count dest ≤ 1
      rw [← inv.listening dest]
      omega
  | emitData | ondata | next | drain | writeElse | pause | resume | onData =>
    trivial

/-- One accurate step keeps the count exact. -/
theorem Balanced.step (balanced : Balanced c)
    (inv : Inv c) (accurate : Accurate c action) (stepped : step c action = some c') :
    Balanced c' := by
  cases action with
  | pipe dest =>
    cases stepped
    exact balanced.pipe accurate.2.1 accurate.2.2
  | unpipe dest =>
    cases stepped
    exact balanced.unpipe inv dest
  | emitData | pause =>
    cases stepped
    exact balanced.of_eq rfl rfl rfl
  | ondata ret =>
    simp only [Pipe.step] at stepped
    split at stepped
    · rename_i first listeners stack top
      cases stepped
      have popped : Balanced { c with stack := .data listeners :: stack } :=
        balanced.of_eq rfl rfl rfl
      have called : first ∈ c.calling := by simp [calling, top]
      exact popped.ondata (accurate.imp_right fun all => all first called)
    · cases stepped
  | next =>
    simp only [Pipe.step] at stepped
    split at stepped
    case h_3 first listeners stack top =>
      cases stepped
      have popped : Balanced { c with stack := .unpipe listeners :: stack } :=
        balanced.of_eq rfl rfl rfl
      have cleaned : first ∈ c.cleaning := by simp [cleaning, top]
      exact popped.cleanup (accurate first cleaned)
    case h_1 | h_2 | h_4 | h_5 => cases stepped; exact balanced.of_eq rfl rfl rfl
    case h_6 => cases stepped
  | drain dest =>
    simp only [Pipe.step] at stepped
    split at stepped
    · cases stepped
      exact balanced.emitDrain inv accurate
    · cases stepped
  | writeElse =>
    cases stepped
    exact balanced.of_eq rfl rfl (owes_wroteElse _ _ _)
  | resume =>
    cases stepped
    exact balanced.resume
  | onData =>
    cases stepped
    exact Balanced.onData (balanced.of_eq rfl rfl rfl)

/-! ## Whole runs -/

/-- `awaitDrain` is the number of piped destinations that owe a drain, and the drain that
brings it to zero starts the flow. -/
structure AwaitDrainExact (c : Config Dest) : Prop where
  count : (∀ frame ∈ c.stack, frame.unpipes = false) →
    c.awaitDrain = (piped c.trace).countP (owes c.trace)
  restarts : ∀ dest c', step c (.drain dest) = some c' → c.awaitDrain ≠ 0 →
    c'.awaitDrain = 0 → c'.flowing = some true ∧ c'.trace.getLast? = some .flow

theorem restarts_of_balanced (inv : Inv c) (balanced : Balanced c)
    (stepped : step c (.drain dest) = some c') (more : c.awaitDrain ≠ 0)
    (zero : c'.awaitDrain = 0) : c'.flowing = some true ∧ c'.trace.getLast? = some .flow := by
  simp only [step] at stepped
  split at stepped
  · cases stepped
    by_cases member : dest ∈ c.dests
    · rw [emitDrain_of_mem inv balanced member] at zero ⊢
      rw [ondrain_awaitDrain] at zero
      have listens : c.dataListeners.length + c.otherData ≠ 0 := by grind [dests]
      have flows : c.awaitDrain - 1 = 0 ∧ c.dataListeners.length + c.otherData ≠ 0 :=
        ⟨zero, listens⟩
      rw [ondrain, if_pos flows]
      exact ⟨rfl, List.getLast?_concat⟩
    rw [emitDrain_of_not_mem inv member] at zero
    exact absurd zero more
  · cases stepped

/-- **`awaitDrain` is exact** in every run in which the drains that are counted are the drains
that are owed. -/
theorem awaitDrain_exact {c : Config Dest} (run : Run step Accurate new c) : AwaitDrainExact c := by
  have both : Inv c ∧ Balanced c := by
    refine run.invariant (fun c => Inv c ∧ Balanced c) ⟨.new, nodup_nil, rfl⟩ ?_
    intro c c' a holds accurate stepped
    obtain ⟨inv, balanced⟩ := holds
    exact ⟨inv.step (accurate.once inv balanced) stepped, balanced.step inv accurate stepped⟩
  obtain ⟨inv, balanced⟩ := both
  refine ⟨?_, fun dest c' stepped => restarts_of_balanced inv balanced stepped⟩
  intro idle
  have same : c.dests.Perm (piped c.trace) := by
    apply perm_iff_count.mpr
    intro dest
    rw [← inv.countP_eq idle, dests, count_eq_countP, countP_map]
    apply countP_congr
    intro s _
    simp
  rw [balanced.awaitDrain, same.countP_eq]

instance (c : Config Dest) (action : Action Dest) : Decidable (Accurate c action) :=
  match action with
  | .pipe dest =>
    inferInstanceAs (Decidable ((∀ frame ∈ c.stack, frame.awaits dest = false) ∧
      dest ∉ c.dests ∧ owes c.trace dest = false))
  | .ondata ret =>
    inferInstanceAs (Decidable (ret = .more ∨ ∀ first ∈ c.calling,
      first ∈ c.dataListeners ∧ owes c.trace first.dest = false))
  | .drain dest =>
    inferInstanceAs (Decidable (dest ∈ c.dests → owes c.trace dest = true ∨ c.waits = false))
  | .next =>
    inferInstanceAs (Decidable (∀ first ∈ c.cleaning, c.waits = true →
      (needDrain c.trace first.dest = true ↔
        first ∈ c.dataListeners ∧ owes c.trace first.dest = true)))
  | .unpipe _ | .emitData | .writeElse _ _ | .pause | .resume | .onData =>
    inferInstanceAs (Decidable True)

/-- Two destinations return false; one drains and the other is unpiped. -/
theorem awaitDrain_exact_of_two :
    ∃ c : Config Nat, c.flowing = some true ∧ owes c.trace 7 = true ∧ c.pipes = .one 8 ∧
      AwaitDrainExact c := by
  obtain ⟨c, run, holds⟩ := Run.exists_of_exec step Accurate (new : Config Nat)
    (fun c => c.flowing = some true ∧ owes c.trace 7 = true ∧ c.pipes = .one 8)
    [.pipe 7, .pipe 8, .emitData, .ondata .full, .ondata .full, .next, .drain 8,
      .unpipe (some 7), .next, .next] (by decide)
  exact ⟨c, holds.1, holds.2.1, holds.2.2, awaitDrain_exact run⟩

/-- A destination that is piped while another owes a drain starts the flow, the other returns
false once more, and after the drains of both the count is still one. -/
theorem piped_while_paused :
    ∃ c : Config Nat, Run step (fun _ _ => True) new c ∧ c.flowing = some false ∧
      (∀ dest, owes c.trace dest = false) ∧ c.awaitDrain = 1 ∧ ¬ AwaitDrainExact c := by
  obtain ⟨c, run, stack, flowing, trace, count⟩ := Run.exists_of_exec step (fun _ _ => True)
    (new : Config Nat)
    (fun c => c.stack = [] ∧ c.flowing = some false ∧
      c.trace = [.piped 7, .wrote 7 .full, .piped 8, .wrote 7 .full, .wrote 8 .more,
        .drained 7] ∧ c.awaitDrain = 1)
    [.pipe 7, .emitData, .ondata .full, .next, .pipe 8, .emitData, .ondata .full, .ondata .more,
      .next, .drain 7] (by decide)
  have paid : ∀ dest, owes c.trace dest = false := by
    intro dest
    by_cases first : 7 = dest
    · simp [trace, owes, first]
    · simp [trace, owes, first]
  refine ⟨c, run, flowing, paid, count, ?_⟩
  intro exact
  have equal := exact.count (by simp [stack])
  have zero : (piped c.trace).countP (owes c.trace) = 0 :=
    countP_eq_zero.mpr (fun dest _ => by simp [paid dest])
  simp [count, zero] at equal

end IoJs.Stream.Pipe
