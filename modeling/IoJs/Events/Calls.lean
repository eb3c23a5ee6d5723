import IoJs.Events.Sequences

/-!
# Which listeners are called

In an `Orderly` history the listeners that an `emit` has called are the first ones of its copy, and
all of them if it has returned; and a function that was passed to `once` has been called once at
most. Nothing that an emitter does changes that (`Orderly.step`).
-/

namespace IoJs.Events

open IoJs.Library List

/-- The listener that the `n`th `emit` calls -/
def Event.callee (n : Nat) : Event → Option Fn
  | .called n' listener => if n' = n then some listener else none
  | _ => none

/-- No listener has been called, and no call is over. -/
def Event.isSilent : Event → Bool
  | .refused _ | .threw => true
  | _ => false

/-- What the `n`th `emit` has called -/
def calls (n : Nat) (trace : List Event) : List Fn := trace.filterMap (Event.callee n)

/-- The number of an `emit` -/
def Frame.number {Ref : Type} : Frame Ref → Option Nat
  | .emitting n .. => some n
  | _ => none

theorem calls_append (n : Nat) (trace : List Event) (event : Event) :
    calls n (trace ++ [event]) = calls n trace ++ (event.callee n).toList := by
  rw [calls, filterMap_append, filterMap_cons, filterMap_nil]
  cases event.callee n <;> rfl

theorem calls_append_of_none {n : Nat} {event : Event} (other : event.callee n = none)
    (trace : List Event) : calls n (trace ++ [event]) = calls n trace := by
  rw [calls_append, other]
  exact append_nil _

variable {Store Ref : Type} {m m' : Machine Store Ref}

/-- Every `emit` calls the listeners of its copy in their order, and every `g` calls its function
once. -/
structure Orderly (m : Machine Store Ref) : Prop where
  known : ∀ {n type args listeners}, .started n type args listeners ∈ m.trace → n < m.emissions
  unique : ∀ {n type type' args args' listeners listeners'},
    .started n type args listeners ∈ m.trace → .started n type' args' listeners' ∈ m.trace →
      listeners = listeners'
  unborn : ∀ {n}, m.emissions ≤ n → calls n m.trace = [] ∧ .returned n ∉ m.trace
  underWay : ∀ {n type args listeners i}, .emitting n type args listeners i ∈ m.stack →
    .started n type args listeners ∈ m.trace ∧ calls n m.trace = listeners.take i ∧
      .returned n ∉ m.trace
  alone : (m.stack.filterMap Frame.number).Nodup
  called : ∀ {n type args listeners}, .started n type args listeners ∈ m.trace →
    calls n m.trace <+: listeners ∧ (.returned n ∈ m.trace → calls n m.trace = listeners)
  applied : ∀ {g}, .applied g ∈ m.trace → g ∈ m.fired
  once : ∀ g, m.trace.count (.applied g) ≤ 1

namespace Orderly

theorem initial (emitter : Store) : Orderly (Machine.initial emitter : Machine Store Ref) where
  known := by rintro n type args listeners ⟨⟩
  unique := by rintro n type type' args args' listeners listeners' ⟨⟩
  unborn := fun _ => ⟨rfl, not_mem_nil⟩
  underWay := by rintro n type args listeners i ⟨⟩
  alone := nodup_nil
  called := by rintro n type args listeners ⟨⟩
  applied := by rintro g ⟨⟩
  once := fun _ => Nat.zero_le _

theorem sub (orderly : Orderly m) (stack : m'.stack.Sublist m.stack) (trace : m'.trace = m.trace)
    (emissions : m'.emissions = m.emissions) (fired : m'.fired = m.fired) : Orderly m' where
  known := by
    rw [trace, emissions]
    exact orderly.known
  unique := by
    rw [trace]
    exact orderly.unique
  unborn := by
    rw [trace, emissions]
    exact orderly.unborn
  underWay := by
    rw [trace]
    exact fun mem => orderly.underWay (stack.subset mem)
  alone := orderly.alone.sublist (stack.filterMap _)
  called := by
    rw [trace]
    exact orderly.called
  applied := by
    rw [trace, fired]
    exact orderly.applied
  once := by
    rw [trace]
    exact orderly.once

variable {frame : Frame Ref}

theorem push (orderly : Orderly m) (other : frame.number = none) : Orderly (m.push frame) where
  known := orderly.known
  unique := orderly.unique
  unborn := orderly.unborn
  underWay := by
    intro n type args listeners i mem
    rcases mem_cons.mp mem with rfl | mem
    · cases other
    · exact orderly.underWay mem
  alone := by
    rw [Machine.push, filterMap_cons_none other]
    exact orderly.alone
  called := orderly.called
  applied := orderly.applied
  once := orderly.once

variable {trace : List Event} {event event' : Event}

theorem mem_append_of_ne (other : event' ≠ event) : event' ∈ trace ++ [event] ↔ event' ∈ trace := by
  rw [mem_append, mem_singleton]
  exact or_iff_left other

theorem count_append_of_ne (other : event ≠ event') :
    (trace ++ [event]).count event' = trace.count event' := by
  rw [count_append, count_singleton, beq_eq_false_iff_ne.mpr other]
  rfl

theorem log (orderly : Orderly m) (silent : event.isSilent = true) : Orderly (m.log event) := by
  have other : ∀ n, event.callee n = none := by
    intro n
    cases event <;> first | rfl | cases silent
  have started : ∀ {n type args listeners}, Event.started n type args listeners ≠ event := by
    rintro n type args listeners rfl
    cases silent
  have returned : ∀ {n}, Event.returned n ≠ event := by
    rintro n rfl
    cases silent
  have applied : ∀ {g}, Event.applied g ≠ event := by
    rintro g rfl
    cases silent
  refine ⟨?_, ?_, ?_, ?_, orderly.alone, ?_, ?_, ?_⟩
  · intro n type args listeners mem
    exact orderly.known ((mem_append_of_ne started).mp mem)
  · intro n type type' args args' listeners listeners' mem mem'
    exact orderly.unique ((mem_append_of_ne started).mp mem) ((mem_append_of_ne started).mp mem')
  · intro n beyond
    rw [Machine.log, calls_append_of_none (other n), mem_append_of_ne returned]
    exact orderly.unborn beyond
  · intro n type args listeners i mem
    rw [Machine.log, mem_append_of_ne started, calls_append_of_none (other n),
      mem_append_of_ne returned]
    exact orderly.underWay mem
  · intro n type args listeners mem
    rw [Machine.log, calls_append_of_none (other n), mem_append_of_ne returned]
    exact orderly.called ((mem_append_of_ne started).mp mem)
  · intro g mem
    exact orderly.applied ((mem_append_of_ne applied).mp mem)
  intro g
  rw [Machine.log, count_append_of_ne applied.symm]
  exact orderly.once g

theorem refuse (orderly : Orderly m) (type : EventName) : Orderly (m.refuse type) := by
  refine orderly.log ?_
  split_ifs <;> rfl

variable {n : Nat}

theorem lt_of_mem_numbers (orderly : Orderly m)
    (mem : n ∈ m.stack.filterMap Frame.number) : n < m.emissions := by
  obtain ⟨frame, frame_mem, number⟩ := mem_filterMap.mp mem
  cases frame with
  | emitting =>
    cases number
    exact orderly.known (orderly.underWay frame_mem).1
  | _ => cases number

theorem start (orderly : Orderly m) (type : EventName) (args : List Arg) (listeners : List Fn) :
    Orderly (m.start type args listeners) := by
  obtain ⟨nothing, running⟩ := orderly.unborn (Nat.le_refl m.emissions)
  have silent : ∀ n, (Event.started m.emissions type args listeners).callee n = none := fun _ => rfl
  have mem_iff : ∀ {n type' args' listeners'}, Event.started n type' args' listeners' ∈
      m.trace ++ [.started m.emissions type args listeners] →
        Event.started n type' args' listeners' ∈ m.trace ∨
          n = m.emissions ∧ listeners' = listeners := by
    intro n type' args' listeners' mem
    rcases mem_append.mp mem with old | new
    · exact .inl old
    cases mem_singleton.mp new
    exact .inr ⟨rfl, rfl⟩
  have returned : ∀ {n}, Event.returned n ∈
      m.trace ++ [.started m.emissions type args listeners] ↔ Event.returned n ∈ m.trace :=
    mem_append_of_ne (by rintro ⟨⟩)
  refine ⟨?_, ?_, ?_, ?_, ?_, ?_, ?_, ?_⟩
  · intro n type' args' listeners' mem
    rcases mem_iff mem with old | ⟨rfl, -⟩
    · exact Nat.lt_succ_of_lt (orderly.known old)
    · exact Nat.lt_succ_self _
  · intro n type' type'' args' args'' first second mem mem'
    rcases mem_iff mem with old | ⟨new, same⟩ <;> rcases mem_iff mem' with old' | ⟨new', same'⟩
    · exact orderly.unique old old'
    · exact absurd (orderly.known old) (by omega)
    · exact absurd (orderly.known old') (by omega)
    · exact same.trans same'.symm
  · intro n beyond
    have before : m.emissions ≤ n := Nat.le_of_succ_le beyond
    rw [Machine.start, Machine.log, Machine.push, calls_append_of_none (silent n), returned]
    exact orderly.unborn before
  · intro n type' args' listeners' i mem
    rw [Machine.start, Machine.log, Machine.push, calls_append_of_none (silent n), returned]
    rcases mem_cons.mp mem with new | old
    · cases new
      exact ⟨mem_append_right _ mem_cons_self, nothing, running⟩
    obtain ⟨begun, called, still⟩ := orderly.underWay old
    exact ⟨mem_append_left _ begun, called, still⟩
  · refine nodup_cons.mpr ⟨fun mem => ?_, orderly.alone⟩
    exact Nat.lt_irrefl _ (orderly.lt_of_mem_numbers mem)
  · intro n type' args' listeners' mem
    rw [Machine.start, Machine.log, Machine.push, calls_append_of_none (silent n), returned]
    rcases mem_iff mem with old | ⟨rfl, rfl⟩
    · exact orderly.called old
    rw [nothing]
    exact ⟨List.nil_prefix, fun finished => absurd finished running⟩
  · intro g mem
    exact orderly.applied ((mem_append_of_ne (by rintro ⟨⟩)).mp mem)
  intro g
  rw [Machine.start, Machine.log, Machine.push, count_append_of_ne (by rintro ⟨⟩)]
  exact orderly.once g

variable {n : Nat} {type : EventName} {args : List Arg} {listeners : List Fn} {i : Nat}
  {rest : List (Frame Ref)}

section

variable (orderly : Orderly m)
include orderly

theorem ne_of_mem_rest
    (top : m.stack = .emitting n type args listeners i :: rest) {n' : Nat} {type' : EventName}
    {args' : List Arg} {listeners' : List Fn} {i' : Nat}
    (mem : .emitting n' type' args' listeners' i' ∈ rest) : n' ≠ n := by
  have alone := orderly.alone
  rw [top] at alone
  obtain ⟨new, -⟩ := nodup_cons.mp alone
  rintro rfl
  exact new (mem_filterMap.mpr ⟨_, mem, rfl⟩)

theorem call (top : m.stack = .emitting n type args listeners i :: rest)
    {listener : Fn} (next : listeners[i]? = some listener) :
    Orderly ({ m with stack := .emitting n type args listeners (i + 1) :: rest }.log
      (.called n listener)) := by
  have here : Frame.emitting n type args listeners i ∈ m.stack := top ▸ mem_cons_self
  obtain ⟨begun, called, running⟩ := orderly.underWay here
  have more : calls n (m.trace ++ [.called n listener]) = listeners.take (i + 1) := by
    rw [calls_append, called, take_add_one, next]
    simp [Event.callee]
  have silent : ∀ {n'}, n' ≠ n → (Event.called n listener).callee n' = none :=
    fun different => if_neg different.symm
  have other : ∀ {n'}, n' ≠ n → calls n' (m.trace ++ [.called n listener]) = calls n' m.trace :=
    fun different => calls_append_of_none (silent different) _
  have started : ∀ {n' type' args' listeners'}, Event.started n' type' args' listeners' ∈
      m.trace ++ [.called n listener] ↔ Event.started n' type' args' listeners' ∈ m.trace :=
    mem_append_of_ne (by rintro ⟨⟩)
  have returned : ∀ {n'}, Event.returned n' ∈ m.trace ++ [.called n listener] ↔
      Event.returned n' ∈ m.trace := mem_append_of_ne (by rintro ⟨⟩)
  refine ⟨?_, ?_, ?_, ?_, ?_, ?_, ?_, ?_⟩
  · exact fun mem => orderly.known (started.mp mem)
  · exact fun mem mem' => orderly.unique (started.mp mem) (started.mp mem')
  · intro n' beyond
    have different : n' ≠ n := by
      have := orderly.known begun
      simp only [Machine.log] at beyond
      omega
    rw [Machine.log, other different, returned]
    exact orderly.unborn beyond
  · intro n' type' args' listeners' i' mem
    rw [Machine.log, started, returned]
    rcases mem_cons.mp mem with same | old
    · cases same
      exact ⟨begun, more, running⟩
    rw [other (orderly.ne_of_mem_rest top old)]
    exact orderly.underWay (top ▸ mem_cons_of_mem _ old)
  · have alone := orderly.alone
    rw [top] at alone
    exact alone
  · intro n' type' args' listeners' mem
    rw [Machine.log, returned]
    have old := started.mp mem
    by_cases same : n' = n
    · subst same
      rw [more, orderly.unique old begun]
      exact ⟨List.take_prefix _ _, fun finished => absurd finished running⟩
    rw [other same]
    exact orderly.called old
  · exact fun mem => orderly.applied ((mem_append_of_ne (by rintro ⟨⟩)).mp mem)
  intro g
  rw [Machine.log, count_append_of_ne (by rintro ⟨⟩)]
  exact orderly.once g

theorem return_ (top : m.stack = .emitting n type args listeners i :: rest)
    (done : listeners[i]? = none) : Orderly ({ m with stack := rest }.log (.returned n)) := by
  have here : Frame.emitting n type args listeners i ∈ m.stack := top ▸ mem_cons_self
  obtain ⟨begun, called, running⟩ := orderly.underWay here
  rw [take_of_length_le (List.getElem?_eq_none_iff.mp done)] at called
  have same : ∀ n', calls n' (m.trace ++ [.returned n]) = calls n' m.trace :=
    fun _ => calls_append_of_none rfl _
  have started : ∀ {n' type' args' listeners'}, Event.started n' type' args' listeners' ∈
      m.trace ++ [.returned n] ↔ Event.started n' type' args' listeners' ∈ m.trace :=
    mem_append_of_ne (by rintro ⟨⟩)
  have returned : ∀ {n'}, Event.returned n' ∈ m.trace ++ [.returned n] →
      Event.returned n' ∈ m.trace ∨ n' = n := by
    intro n' mem
    rcases mem_append.mp mem with old | new
    · exact .inl old
    cases mem_singleton.mp new
    exact .inr rfl
  refine ⟨?_, ?_, ?_, ?_, ?_, ?_, ?_, ?_⟩
  · exact fun mem => orderly.known (started.mp mem)
  · exact fun mem mem' => orderly.unique (started.mp mem) (started.mp mem')
  · intro n' beyond
    obtain ⟨nothing, still⟩ := orderly.unborn beyond
    rw [Machine.log, same]
    refine ⟨nothing, fun mem => ?_⟩
    rcases returned mem with old | rfl
    · exact still old
    · exact absurd (orderly.known begun) (Nat.not_lt_of_le beyond)
  · intro n' type' args' listeners' i' mem
    obtain ⟨begun', called', still⟩ := orderly.underWay (top ▸ mem_cons_of_mem _ mem)
    rw [Machine.log, started, same]
    refine ⟨begun', called', fun finished => ?_⟩
    rcases returned finished with old | rfl
    · exact still old
    · exact orderly.ne_of_mem_rest top mem rfl
  · have alone := orderly.alone
    rw [top] at alone
    exact (nodup_cons.mp alone).2
  · intro n' type' args' listeners' mem
    have old := started.mp mem
    rw [Machine.log, same]
    refine ⟨(orderly.called old).1, fun finished => ?_⟩
    rcases returned finished with before | rfl
    · exact (orderly.called old).2 before
    · rw [called, orderly.unique begun old]
  · exact fun mem => orderly.applied ((mem_append_of_ne (by rintro ⟨⟩)).mp mem)
  intro g
  rw [Machine.log, count_append_of_ne (by rintro ⟨⟩)]
  exact orderly.once g

theorem fire (top : m.stack = frame :: rest) {g : Nat} (first : g ∉ m.fired) :
    Orderly ({ m with stack := rest, fired := g :: m.fired }.log (.applied g)) := by
  have same : ∀ n', calls n' (m.trace ++ [.applied g]) = calls n' m.trace :=
    fun _ => calls_append_of_none rfl _
  have started : ∀ {n' type' args' listeners'}, Event.started n' type' args' listeners' ∈
      m.trace ++ [.applied g] ↔ Event.started n' type' args' listeners' ∈ m.trace :=
    mem_append_of_ne (by rintro ⟨⟩)
  have returned : ∀ {n'}, Event.returned n' ∈ m.trace ++ [.applied g] ↔
      Event.returned n' ∈ m.trace := mem_append_of_ne (by rintro ⟨⟩)
  refine ⟨?_, ?_, ?_, ?_, ?_, ?_, ?_, ?_⟩
  · exact fun mem => orderly.known (started.mp mem)
  · exact fun mem mem' => orderly.unique (started.mp mem) (started.mp mem')
  · intro n' beyond
    rw [Machine.log, same, returned]
    exact orderly.unborn beyond
  · intro n' type' args' listeners' i' mem
    rw [Machine.log, started, same, returned]
    exact orderly.underWay (top ▸ mem_cons_of_mem _ mem)
  · have alone := orderly.alone
    rw [top] at alone
    exact alone.sublist ((sublist_cons_self frame rest).filterMap _)
  · intro n' type' args' listeners' mem
    rw [Machine.log, same, returned]
    exact orderly.called (started.mp mem)
  · intro g' mem
    rcases mem_append.mp mem with old | new
    · exact mem_cons_of_mem _ (orderly.applied old)
    cases mem_singleton.mp new
    exact mem_cons_self
  intro g'
  rw [Machine.log]
  by_cases here : g' = g
  · subst here
    have none_ : m.trace.count (.applied g') = 0 :=
      count_eq_zero.mpr fun mem => first (orderly.applied mem)
    rw [count_append, none_, count_singleton_self]
  rw [count_append_of_ne (by rintro ⟨⟩; exact here rfl)]
  exact orderly.once g'

end

end Orderly

/-! ## Every step is orderly -/

namespace Spec

variable {m m' : Spec} {type : EventName} {listener : Fn} {args : List Arg}

section

variable (orderly : Orderly m)
include orderly

theorem emit_orderly : Orderly (emit type args m) := by
  rw [emit]
  split_ifs
  · exact orderly.refuse type
  · exact orderly.start type args _

theorem notifyRemoved_orderly : Orderly (notifyRemoved type listener m) := by
  rw [notifyRemoved]
  split_ifs
  · exact orderly
  · exact emit_orderly orderly

theorem put_orderly (list : List Fn) : Orderly (put type list m) :=
  orderly.sub (List.Sublist.refl _) rfl rfl rfl

theorem addListener_orderly : Orderly (addListener type listener m) := by
  rw [addListener]
  split_ifs
  · exact put_orderly orderly _
  · exact emit_orderly (orderly.push rfl)

theorem removeListener_orderly : Orderly (removeListener type listener m) := by
  rw [removeListener]
  split_ifs
  · exact notifyRemoved_orderly (put_orderly orderly _)
  · exact orderly

theorem removeLast_orderly : Orderly (removeLast type m) := by
  rw [removeLast]
  cases (m.emitter type).getLast? with
  | none => exact orderly
  | some => exact removeListener_orderly orderly

end

theorem RemoveAll.orderly {type : Option EventName} (removed : RemoveAll m type m')
    (orderly : Orderly m) : Orderly m' := by
  cases removed with
  | silent => exact orderly.sub (List.Sublist.refl _) rfl rfl rfl
  | silentOf => exact put_orderly orderly []
  | keys => exact orderly.push rfl
  | nothing => exact orderly
  | one => exact removeListener_orderly orderly
  | each => exact removeLast_orderly (orderly.push rfl)

theorem call_orderly (orderly : Orderly m) : Orderly (call listener args m) := by
  cases listener with
  | user id => exact orderly.push rfl
  | g id =>
    rw [call]
    cases m.closures[id]? with
    | none => exact orderly
    | some => exact removeListener_orderly (orderly.push rfl)

theorem leave_orderly (orderly : Orderly m) {frame : Frame Unit} {rest : List (Frame Unit)}
    (top : m.stack = frame :: rest) : Orderly { m with stack := rest } := by
  refine orderly.sub ?_ rfl rfl rfl
  rw [top]
  exact sublist_cons_self frame rest

theorem Advance.orderly (next : Advance m m') (orderly : Orderly m) : Orderly m' := by
  cases next with
  | call top next => exact call_orderly (orderly.call top next)
  | return_ top done => exact orderly.return_ top done
  | fire top first => exact call_orderly (orderly.fire top first)
  | fired top | none_ top => exact leave_orderly orderly top
  | add top => exact put_orderly (leave_orderly orderly top) _
  | skip top => exact (leave_orderly orderly top).push rfl
  | key top other removed | last top removed =>
    exact removed.orderly ((leave_orderly orderly top).push rfl)
  | clear top => exact (leave_orderly orderly top).sub (List.Sublist.refl _) rfl rfl rfl
  | each => exact removeLast_orderly orderly

theorem Step.orderly {action : Action} (step : Step m action m') (orderly : Orderly m) :
    Orderly m' := by
  cases step with
  | on => exact addListener_orderly orderly
  | once => exact addListener_orderly (orderly.sub (List.Sublist.refl _) rfl rfl rfl)
  | removeListener => exact removeListener_orderly orderly
  | removeAllListeners removed => exact removed.orderly orderly
  | emit => exact emit_orderly orderly
  | returns => exact orderly.sub (tail_sublist _) rfl rfl rfl
  | throws => exact orderly.sub ((dropWhile_sublist _).trans (tail_sublist _)) rfl rfl rfl
  | advance next => exact next.orderly orderly

end Spec

end IoJs.Events
