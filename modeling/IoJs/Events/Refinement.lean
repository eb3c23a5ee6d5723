import IoJs.Events.Calls
import IoJs.Events.Removal

/-!
# Emitters are maps to sequences

`abstraction` sees an emitter as the map that its table stands for. If the listeners of
`newListener` and `removeListener` do not modify the emitter, every step of the code is a step of
the map (`Inv.simulated`). The invariant is that the table is consistent, that the array in a loop
of `removeAllListeners` is the one of its event, and that a method that waits for its own `emit` is
covered by an `emit` of `newListener` or `removeListener`, so that the program cannot modify the
emitter before it goes on.
-/

namespace IoJs.Events

open IoJs.Library List Option
open State (removeAllListeners apply call)

namespace Frame

/-- An array is what is in it. -/
def erase : Frame Nat → Frame Unit
  | running listener args => running listener args
  | emitting n type args listeners i => emitting n type args listeners i
  | firing g args => firing g args
  | adding type listener => adding type listener
  | removingAll keys => removingAll keys
  | clearing => clearing
  | removingEach type _ => removingEach type ()

/-- A loop of `removeAllListeners` over the listeners of one event -/
def isLoop {Ref : Type} : Frame Ref → Bool
  | removingEach .. => true
  | _ => false

theorem isRunning_erase (frame : Frame Nat) : frame.erase.isRunning = frame.isRunning := by
  cases frame <;> rfl

end Frame

/-- **What an emitter stands for** -/
def abstraction (m : State) : Spec where
  emitter := m.emitter.sequence
  closures := m.closures
  fired := m.fired
  stack := m.stack.map Frame.erase
  emissions := m.emissions
  trace := m.trace

variable {m : State} {type : EventName} {listener : Fn} {args : List Arg} {a : Nat}
variable {rest : List (Frame Nat)}

/-! ## The cases of `removeAllListeners` -/

section RemoveAll

variable (noticed : (m.emitter.events.get .removeListener).isSome = true)
  (silent : (m.emitter.events.get .removeListener).isSome ≠ true)

include noticed in
theorem removeAll_keys : removeAllListeners none m =
    m.push (.removingAll (objectKeys m.emitter.events.keys)) := by
  unfold removeAllListeners
  rw [if_pos noticed]

include noticed in
theorem removeAll_nothing (here : m.emitter.events.get type = none) :
    removeAllListeners (some type) m = m := by
  unfold removeAllListeners
  rw [if_pos noticed]
  simp only [here]

include noticed in
theorem removeAll_fn (here : m.emitter.events.get type = some (.fn listener)) :
    removeAllListeners (some type) m = State.removeListener type listener m := by
  unfold removeAllListeners
  rw [if_pos noticed]
  simp only [here]

include noticed in
theorem removeAll_array (here : m.emitter.events.get type = some (.array a)) :
    removeAllListeners (some type) m =
      State.removeLast type a (m.push (.removingEach type a)) := by
  unfold removeAllListeners
  rw [if_pos noticed]
  simp only [here]

include silent in
theorem removeAll_clear : removeAllListeners none m = { m with emitter := m.emitter.clear } := by
  unfold removeAllListeners
  rw [if_neg silent]

include silent in
theorem removeAll_forget (here : (m.emitter.events.get type).isSome = true) :
    removeAllListeners (some type) m = { m with emitter := m.emitter.forget type } := by
  unfold removeAllListeners
  rw [if_neg silent]
  exact if_pos here

include silent in
theorem removeAll_silent_nothing (here : (m.emitter.events.get type).isSome ≠ true) :
    removeAllListeners (some type) m = m := by
  unfold removeAllListeners
  rw [if_neg silent]
  exact if_neg here

end RemoveAll

/-! ## The cases of `advance` -/

section Advance

variable {n i : Nat} {listeners : List Fn} {rest : List (Frame Nat)} {keys : List EventName}

theorem advance_call (top : m.stack = .emitting n type args listeners i :: rest)
    (next : listeners[i]? = some listener) :
    m.advance = call listener args
      ({ m with stack := .emitting n type args listeners (i + 1) :: rest }.log
        (.called n listener)) := by
  unfold State.advance
  rw [top]
  simp only [next]

theorem advance_return (top : m.stack = .emitting n type args listeners i :: rest)
    (done : listeners[i]? = none) :
    m.advance = { m with stack := rest }.log (.returned n) := by
  unfold State.advance
  rw [top]
  simp only [done]

theorem advance_apply (top : m.stack = .firing n args :: rest) :
    m.advance = apply n args { m with stack := rest } := by
  unfold State.advance
  rw [top]

theorem apply_first (first : n ∉ m.fired) (closure : m.listenerOf (.g n) = some listener) :
    apply n args m =
      call listener args ({ m with fired := n :: m.fired }.log (.applied n)) := by
  rw [apply, if_neg first, closure]

theorem apply_again (again : n ∈ m.fired ∨ m.listenerOf (.g n) = none) : apply n args m = m := by
  rw [apply]
  split_ifs with fired
  · rfl
  · rw [again.resolve_left fired]

theorem advance_add (top : m.stack = .adding type listener :: rest) :
    m.advance = State.append type listener { m with stack := rest } := by
  unfold State.advance
  rw [top]

theorem advance_skip (top : m.stack = .removingAll (.removeListener :: keys) :: rest) :
    m.advance = { m with stack := .removingAll keys :: rest } := by
  unfold State.advance
  simp [top]

theorem advance_key {key : EventName}
    (top : m.stack = .removingAll (key :: keys) :: rest) (other : key ≠ .removeListener) :
    m.advance =
      removeAllListeners (some key) { m with stack := .removingAll keys :: rest } := by
  unfold State.advance
  rw [top]
  exact if_neg other

theorem advance_last (top : m.stack = .removingAll [] :: rest) : m.advance =
    removeAllListeners (some .removeListener) { m with stack := .clearing :: rest } := by
  unfold State.advance
  rw [top]

theorem advance_clear (top : m.stack = .clearing :: rest) :
    m.advance = { m with stack := rest, emitter := m.emitter.clear } := by
  unfold State.advance
  rw [top]

theorem advance_each (top : m.stack = .removingEach type a :: rest)
    (some_ : m.emitter.array a ≠ []) : m.advance = State.removeLast type a m := by
  unfold State.advance
  rw [top]
  exact if_neg some_

theorem advance_over (top : m.stack = .removingEach type a :: rest)
    (none_ : m.emitter.array a = []) : m.advance = { m with stack := rest } := by
  unfold State.advance
  rw [top]
  exact if_pos none_

end Advance

/-! ## What is under way -/

/-- There is no loop above another method, and what is above a method is an `emit` of `newListener`
or `removeListener`, or a method that it has called. -/
def Stacked : List (Frame Nat) → Prop
  | [] => True
  | frame :: rest =>
    (frame.isMethod = true → ∀ lower ∈ rest, lower.isLoop = false) ∧
      (∀ lower ∈ rest.head?, lower.isMethod = true →
        frame.isMethod = true ∨ frame.isNotice = true) ∧ Stacked rest

theorem Stacked.of_suffix {stack : List (Frame Nat)} (stacked : Stacked stack)
    (suffix : rest <:+ stack) : Stacked rest := by
  induction stack with
  | nil => exact (suffix_nil.mp suffix) ▸ trivial
  | cons frame stack ih =>
    rcases suffix_cons_iff.mp suffix with rfl | suffix
    · exact stacked
    · exact ih stacked.2.2 suffix

/-- The invariant -/
structure Inv (m : State) : Prop where
  consistent : m.emitter.Consistent
  loops : ∀ {type a}, .removingEach type a ∈ m.stack → Loop m.emitter type a
  stacked : Stacked m.stack

/-- No loop is under way. -/
def NoLoop (m : State) : Prop := ∀ frame ∈ m.stack, frame.isLoop = false

/-- The top frame is no method. -/
def Idle (m : State) : Prop := ∀ frame ∈ m.stack.head?, frame.isMethod = false

theorem NoLoop.not_mem (noLoop : NoLoop m) : .removingEach type a ∉ m.stack := by
  intro mem
  have := noLoop _ mem
  cases this

namespace Inv

theorem initial : Inv (Machine.initial .init) where
  consistent := Emitter.init_consistent
  loops := by rintro type a ⟨⟩
  stacked := trivial

variable {m' : State}

theorem suffix (inv : Inv m) (emitter : m'.emitter = m.emitter)
    (stack : m'.stack <:+ m.stack) : Inv m' where
  consistent := emitter ▸ inv.consistent
  loops := by
    rw [emitter]
    exact fun mem => inv.loops (stack.subset mem)
  stacked := inv.stacked.of_suffix stack

variable {frame : Frame Nat}

section

variable (inv : Inv m)
include inv

theorem push (other : frame.isMethod = false)
    (covered : Idle m ∨ frame.isNotice = true) : Inv (m.push frame) where
  consistent := inv.consistent
  loops := by
    intro type a mem
    rcases mem_cons.mp mem with rfl | mem
    · cases other
    · exact inv.loops mem
  stacked := by
    refine ⟨fun method => ?_, fun lower top method => ?_, inv.stacked⟩
    · simp [other] at method
    rcases covered with idle | notice
    · simp [idle lower top] at method
    · exact .inr notice

theorem pushMethod (noLoop : NoLoop m) (method : frame.isMethod = true)
    (loop : ∀ {type a}, frame = .removingEach type a → Loop m.emitter type a) :
    Inv (m.push frame) where
  consistent := inv.consistent
  loops := by
    intro type a mem
    rcases mem_cons.mp mem with same | mem
    · exact loop same.symm
    · exact inv.loops mem
  stacked := ⟨fun _ => noLoop, fun _ _ _ => .inl method, inv.stacked⟩

theorem start (listeners : List Fn)
    (covered : Idle m ∨ type = .newListener ∨ type = .removeListener) :
    Inv (m.start type args listeners) := by
  have pushed : Inv (m.push (.emitting m.emissions type args listeners 0)) :=
    inv.push rfl (covered.imp_right fun notice => decide_eq_true notice)
  exact ⟨pushed.consistent, pushed.loops, pushed.stacked⟩

theorem emit (covered : Idle m ∨ type = .newListener ∨ type = .removeListener) :
    Inv (State.emit type args m) := by
  rw [State.emit]
  cases m.emitter.events.get type with
  | none => exact inv.suffix rfl suffix_rfl
  | some handler => cases handler <;> exact inv.start _ covered

theorem notifyRemoved : Inv (State.notifyRemoved type listener m) := by
  rw [State.notifyRemoved]
  split_ifs
  · exact inv.emit (.inr (.inr rfl))
  · exact inv

theorem table (noLoop : NoLoop m) {emitter : Emitter}
    (consistent : emitter.Consistent) : Inv { m with emitter := emitter } where
  consistent := consistent
  loops := fun mem => absurd mem noLoop.not_mem
  stacked := inv.stacked

theorem append (noLoop : NoLoop m) : Inv (State.append type listener m) :=
  inv.table noLoop inv.consistent.add

theorem addListener (noLoop : NoLoop m) : Inv (State.addListener type listener m) := by
  rw [State.addListener]
  split_ifs
  · exact (inv.pushMethod noLoop rfl (by rintro type a ⟨⟩)).emit (.inr (.inl rfl))
  · exact inv.append noLoop

theorem removeListener : Inv (State.removeListener type listener m) := by
  cases found : (m.emitter.sequence type).any (m.isEntry listener) with
  | false =>
    rw [removeListener_of_not_any found]
    exact inv
  | true =>
    obtain ⟨e', removed, eq⟩ := removeListener_eq inv.consistent found
    rw [eq]
    have changed : Inv { m with emitter := e' } :=
      ⟨removed.consistent, fun mem => removed.loops (inv.loops mem), inv.stacked⟩
    exact changed.notifyRemoved

theorem removeLast : Inv (State.removeLast type a m) := by
  rw [State.removeLast]
  cases (m.emitter.array a).getLast? with
  | none => exact inv
  | some => exact inv.removeListener

theorem removeAllListeners (noLoop : NoLoop m) (type : Option EventName) :
    Inv (removeAllListeners type m) := by
  by_cases noticed : (m.emitter.events.get .removeListener).isSome = true
  · cases type with
    | none =>
      rw [removeAll_keys noticed]
      exact inv.pushMethod noLoop rfl (by rintro type a ⟨⟩)
    | some type =>
      cases here : m.emitter.events.get type with
      | none => rwa [removeAll_nothing noticed here]
      | some handler =>
        cases handler with
        | fn =>
          rw [removeAll_fn noticed here]
          exact inv.removeListener
        | array a =>
          rw [removeAll_array noticed here]
          refine (inv.pushMethod noLoop rfl ?_).removeLast
          rintro type' a' ⟨⟩
          exact .there here
  cases type with
  | none =>
    rw [removeAll_clear noticed]
    exact inv.table noLoop (Emitter.clear_consistent _)
  | some type =>
    by_cases here : (m.emitter.events.get type).isSome = true
    · rw [removeAll_forget noticed here]
      exact inv.table noLoop (inv.consistent.forget here)
    · rwa [removeAll_silent_nothing noticed here]

theorem call (idle : Idle m) : Inv (call listener args m) := by
  cases listener with
  | user id => exact inv.push rfl (.inl idle)
  | g id =>
    rw [call]
    cases m.closures[id]? with
    | none => exact inv
    | some => exact (inv.push rfl (.inl idle)).removeListener

end

variable {rest : List (Frame Nat)}

section

variable (inv : Inv m)
include inv

theorem replace (frame' : Frame Nat)
    (top : m.stack = frame :: rest) (method : frame'.isMethod = frame.isMethod)
    (notice : frame'.isNotice = frame.isNotice) (noLoop : frame'.isLoop = false) :
    Inv { m with stack := frame' :: rest } where
  consistent := inv.consistent
  loops := by
    intro type a mem
    rcases mem_cons.mp mem with rfl | mem
    · cases noLoop
    · exact inv.loops (top ▸ mem_cons_of_mem _ mem)
  stacked := by
    have stacked := inv.stacked
    rw [top] at stacked
    rw [Stacked, method, notice]
    exact stacked

theorem called {n i : Nat} {listeners : List Fn}
    (top : m.stack = .emitting n type args listeners i :: rest) (listener : Fn) :
    Inv ({ m with stack := .emitting n type args listeners (i + 1) :: rest }.log
      (.called n listener)) :=
  (inv.replace (.emitting n type args listeners (i + 1)) top rfl rfl rfl).suffix rfl
    suffix_rfl

theorem idle_of_top (top : m.stack = frame :: rest) (other : frame.isMethod = false)
    (plain : frame.isNotice = false) : ∀ lower ∈ rest.head?, lower.isMethod = false := by
  intro lower below
  have stacked := inv.stacked
  rw [top] at stacked
  by_contra method
  rcases stacked.2.1 lower below (by simpa using method) with here | here
  · simp [other] at here
  · simp [plain] at here

theorem noLoop_of_top (top : m.stack = frame :: rest) (method : frame.isMethod = true) :
    ∀ lower ∈ rest, lower.isLoop = false := by
  have stacked := inv.stacked
  rw [top] at stacked
  exact stacked.1 method

theorem apply (idle : Idle m) (n : Nat) : Inv (apply n args m) := by
  by_cases fired : n ∈ m.fired
  · rwa [apply_again (.inl fired)]
  cases closure : m.listenerOf (.g n) with
  | none => rwa [apply_again (.inr closure)]
  | some =>
    rw [apply_first fired closure]
    have logged : Inv ({ m with fired := n :: m.fired }.log (.applied n)) :=
      inv.suffix rfl suffix_rfl
    exact logged.call idle

theorem advance : Inv m.advance := by
  cases top : m.stack with
  | nil =>
    unfold State.advance
    rwa [top]
  | cons frame rest =>
    have below : rest <:+ m.stack := top ▸ suffix_cons frame rest
    have left : Inv { m with stack := rest } := inv.suffix rfl below
    cases frame with
    | running =>
      unfold State.advance
      rwa [top]
    | emitting n type args listeners i =>
      cases next : listeners[i]? with
      | none =>
        rw [advance_return top next]
        exact inv.suffix rfl below
      | some listener =>
        rw [advance_call top next]
        refine (inv.called top listener).call ?_
        rintro frame ⟨⟩
        rfl
    | firing n args =>
      rw [advance_apply top]
      exact left.apply (inv.idle_of_top top rfl rfl) n
    | adding =>
      rw [advance_add top]
      exact left.append (inv.noLoop_of_top top rfl)
    | removingAll keys =>
      have noLoop := inv.noLoop_of_top top rfl
      cases keys with
      | nil =>
        rw [advance_last top]
        have moved := inv.replace .clearing top rfl rfl rfl
        refine moved.removeAllListeners ?_ _
        exact forall_mem_cons.mpr ⟨rfl, noLoop⟩
      | cons key keys =>
        have moved := inv.replace (.removingAll keys) top rfl rfl rfl
        by_cases skip : key = .removeListener
        · subst skip
          rwa [advance_skip top]
        rw [advance_key top skip]
        refine moved.removeAllListeners ?_ _
        exact forall_mem_cons.mpr ⟨rfl, noLoop⟩
    | clearing =>
      rw [advance_clear top]
      exact left.table (inv.noLoop_of_top top rfl) (Emitter.clear_consistent _)
    | removingEach type a =>
      by_cases nothing : m.emitter.array a = []
      · rwa [advance_over top nothing]
      rw [advance_each top nothing]
      exact inv.removeLast

theorem no_method (user : m.user = true) (free : m.free = true) :
    ∀ frame ∈ m.stack, frame.isMethod = false := by
  have plain : ∀ {stack : List (Frame Nat)}, Stacked stack →
      (∀ frame ∈ stack.head?, frame.isMethod = false) →
        (stack.all fun frame => !frame.isNotice) = true →
          ∀ frame ∈ stack, frame.isMethod = false := by
    intro stack stacked top free
    induction stack with
    | nil => exact nofun
    | cons frame rest ih =>
      have here := top frame rfl
      rw [all_cons, Bool.and_eq_true, Bool.not_eq_true'] at free
      refine forall_mem_cons.mpr ⟨here, ih stacked.2.2 (fun lower below => ?_) free.2⟩
      by_contra method
      rcases stacked.2.1 lower below (by simpa using method) with above | above
      · simp [here] at above
      · simp [free.1] at above
  refine plain inv.stacked (fun frame top => ?_) free
  rw [Machine.user, top] at user
  cases frame <;> first | rfl | cases user

theorem noLoop (user : m.user = true) (free : m.free = true) : NoLoop m := by
  intro frame mem
  have plain := inv.no_method user free frame mem
  cases frame <;> first | rfl | cases plain

end

theorem idle (user : m.user = true) : Idle m := by
  intro frame top
  rw [Machine.user, top] at user
  cases frame <;> first | rfl | cases user

/-- One allowed step keeps the invariant. -/
theorem step (inv : Inv m) {action : Action} (allowed : m.Allowed action)
    (stepped : m.step action = some m') : Inv m' := by
  unfold State.step at stepped
  split_ifs at stepped with able
  cases action with
  | on =>
    cases stepped
    exact inv.addListener (inv.noLoop (Bool.and_eq_true_iff.mp able).1 allowed)
  | once type listener =>
    cases stepped
    have noLoop := inv.noLoop (Bool.and_eq_true_iff.mp able).1 allowed
    have made : Inv { m with closures := m.closures ++ [(type, listener)] } :=
      inv.suffix rfl suffix_rfl
    exact made.addListener noLoop
  | removeListener =>
    cases stepped
    exact inv.removeListener
  | removeAllListeners type =>
    cases stepped
    exact inv.removeAllListeners (inv.noLoop able allowed) type
  | emit =>
    cases stepped
    exact inv.emit (.inl (idle able))
  | returns =>
    cases stepped
    exact inv.suffix rfl (tail_suffix _)
  | throws =>
    cases stepped
    exact inv.suffix rfl ((dropWhile_suffix _).trans (tail_suffix _))
  | advance =>
    cases stepped
    exact inv.advance

end Inv

/-! ## The simulation -/

theorem get_isSome_iff (inv : Inv m) :
    (m.emitter.events.get type).isSome = true ↔ (abstraction m).emitter type ≠ [] := by
  change _ ↔ m.emitter.sequence type ≠ []
  rw [ne_eq, inv.consistent.sequence_eq_nil_iff, isSome_iff_ne_none]

theorem arrayClone_length (list : List Fn) : arrayClone list list.length = list := take_length

theorem abstraction_emit (inv : Inv m) :
    abstraction (State.emit type args m) = Spec.emit type args (abstraction m) := by
  rw [State.emit, Spec.emit]
  cases here : m.emitter.events.get type with
  | none => exact (if_pos (Emitter.sequence_of_none here)).symm
  | some handler =>
    have some_ : (abstraction m).emitter type ≠ [] :=
      (get_isSome_iff inv).mp (isSome_of_eq_some here)
    have sequence : (abstraction m).emitter type = m.emitter.items handler :=
      Emitter.sequence_of_some here
    rw [if_neg some_, sequence]
    cases handler with
    | fn => rfl
    | array a =>
      simp only [arrayClone_length]
      rfl

theorem abstraction_notifyRemoved (inv : Inv m) :
    abstraction (State.notifyRemoved type listener m) =
      Spec.notifyRemoved type listener (abstraction m) := by
  rw [State.notifyRemoved, Spec.notifyRemoved]
  by_cases noticed : (m.emitter.events.get .removeListener).isSome = true
  · simp [noticed, (get_isSome_iff inv).mp noticed, abstraction_emit inv]
  · simp [noticed, not_not.mp (mt (get_isSome_iff inv).mpr noticed)]

theorem abstraction_put {emitter : Emitter} {list : List Fn}
    (changed : emitter.sequence = Function.update m.emitter.sequence type list) :
    abstraction { m with emitter := emitter } = Spec.put type list (abstraction m) := by
  rw [abstraction, Spec.put]
  simp only [changed]
  rfl

section

variable (inv : Inv m)
include inv

theorem abstraction_append :
    abstraction (State.append type listener m) = Spec.append type listener (abstraction m) :=
  abstraction_put inv.consistent.sequence_add

theorem abstraction_addListener (noLoop : NoLoop m) :
    abstraction (State.addListener type listener m) =
      Spec.addListener type listener (abstraction m) := by
  rw [State.addListener, Spec.addListener]
  by_cases noticed : (m.emitter.events.get .newListener).isSome = true
  · rw [if_pos noticed, if_neg ((get_isSome_iff inv).mp noticed)]
    exact abstraction_emit (inv.pushMethod noLoop rfl (by rintro type a ⟨⟩))
  · simp [noticed, not_not.mp (mt (get_isSome_iff inv).mpr noticed), abstraction_append inv]

theorem abstraction_removeListener : abstraction (State.removeListener type listener m) =
    Spec.removeListener type listener (abstraction m) := by
  rw [Spec.removeListener]
  cases found : (m.emitter.sequence type).any (m.isEntry listener) with
  | false =>
    rw [removeListener_of_not_any found]
    have absent : ¬((abstraction m).emitter type).any ((abstraction m).isEntry listener) =
        true := Bool.eq_false_iff.mp found
    rw [if_neg absent]
  | true =>
    obtain ⟨e', removed, eq⟩ := removeListener_eq inv.consistent found
    have changed : Inv { m with emitter := e' } :=
      ⟨removed.consistent, fun mem => removed.loops (inv.loops mem), inv.stacked⟩
    have some_ : ((abstraction m).emitter type).any ((abstraction m).isEntry listener) =
        true := found
    rw [eq, abstraction_notifyRemoved changed, if_pos some_, abstraction_put removed.sequence]
    rfl

theorem abstraction_removeLast (loop : Loop m.emitter type a) :
    abstraction (State.removeLast type a m) = Spec.removeLast type (abstraction m) := by
  have sequence : (abstraction m).emitter type = m.emitter.array a := loop.sequence
  rw [State.removeLast, Spec.removeLast, sequence]
  cases (m.emitter.array a).getLast? with
  | none => rfl
  | some => exact abstraction_removeListener inv

theorem abstraction_call (idle : Idle m) :
    abstraction (call listener args m) = Spec.call listener args (abstraction m) := by
  cases listener with
  | user id => rfl
  | g id =>
    have closures : (abstraction m).closures = m.closures := rfl
    rw [call, Spec.call, closures]
    cases m.closures[id]? with
    | none => rfl
    | some => exact abstraction_removeListener (inv.push rfl (.inl idle))

end

theorem objectKeys_perm (keys : List EventName) : (objectKeys keys).Perm keys := by
  refine ((mergeSort_perm _ _).append_right _).trans ?_
  exact filter_append_perm _ _

theorem abstraction_removeAllListeners (inv : Inv m) (noLoop : NoLoop m) (type : Option EventName) :
    Spec.RemoveAll (abstraction m) type (abstraction (removeAllListeners type m)) := by
  by_cases some_ : (m.emitter.events.get .removeListener).isSome = true
  · have noticed := (get_isSome_iff inv).mp some_
    cases type with
    | none =>
      rw [removeAll_keys some_]
      refine .keys noticed _ ?_ ?_
      · exact (objectKeys_perm _).nodup_iff.mpr m.emitter.events.nodup
      intro type
      rw [(objectKeys_perm _).mem_iff]
      exact inv.consistent.mem_keys_iff
    | some type =>
      cases here : m.emitter.events.get type with
      | none =>
        rw [removeAll_nothing some_ here]
        exact .nothing noticed (Emitter.sequence_of_none here)
      | some handler =>
        have filled := (get_isSome_iff inv).mp (isSome_of_eq_some here)
        cases handler with
        | fn =>
          rw [removeAll_fn some_ here, abstraction_removeListener inv]
          exact .one noticed (Emitter.sequence_of_fn here)
        | array a =>
          have pushed : Inv (m.push (.removingEach type a)) := by
            refine inv.pushMethod noLoop rfl ?_
            rintro type' a' ⟨⟩
            exact .there here
          rw [removeAll_array some_ here, abstraction_removeLast pushed (.there here)]
          exact .each noticed filled
  have silent := not_not.mp (mt (get_isSome_iff inv).mpr some_)
  cases type with
  | none =>
    rw [removeAll_clear some_]
    exact .silent silent
  | some type =>
    have dropped := Spec.RemoveAll.silentOf silent type
    by_cases here : (m.emitter.events.get type).isSome = true
    · rwa [removeAll_forget some_ here, abstraction_put (inv.consistent.sequence_forget here)]
    rw [removeAll_silent_nothing some_ here]
    have nothing := not_not.mp (mt (get_isSome_iff inv).mpr here)
    have same : Spec.put type [] (abstraction m) = abstraction m := by simp [Spec.put, ← nothing]
    rwa [same] at dropped

theorem abstraction_apply {n : Nat}
    (top : m.stack = .firing n args :: rest) (left : Inv { m with stack := rest })
    (idle : Idle { m with stack := rest }) :
    Spec.Advance (abstraction m) (abstraction (apply n args { m with stack := rest })) := by
  have firing : (abstraction m).stack = .firing n args :: rest.map Frame.erase :=
    congrArg (List.map Frame.erase) top
  by_cases again : n ∈ m.fired ∨ m.listenerOf (.g n) = none
  · have nothing : apply n args { m with stack := rest } = { m with stack := rest } :=
      apply_again again
    rw [nothing]
    exact .fired firing again
  rw [not_or] at again
  obtain ⟨listener, closure⟩ := ne_none_iff_exists'.mp again.2
  have calls : apply n args { m with stack := rest } = call listener args
      ({ m with stack := rest, fired := n :: m.fired }.log (.applied n)) :=
    apply_first again.1 closure
  have logged : Inv ({ m with stack := rest, fired := n :: m.fired }.log (.applied n)) :=
    left.suffix rfl suffix_rfl
  rw [calls, abstraction_call logged idle]
  exact .fire firing again.1 closure

theorem Inv.simulated_advance (inv : Inv m) (code : m.user = false) :
    Spec.Advance (abstraction m) (abstraction m.advance) := by
  cases top : m.stack with
  | nil => simp [Machine.user, top] at code
  | cons frame rest =>
    have below : rest <:+ m.stack := top ▸ suffix_cons frame rest
    have left : Inv { m with stack := rest } := inv.suffix rfl below
    have top' : (abstraction m).stack = frame.erase :: rest.map Frame.erase :=
      congrArg (List.map Frame.erase) top
    cases frame with
    | running =>
      rw [Machine.user, top] at code
      cases code
    | emitting n type args listeners i =>
      cases next : listeners[i]? with
      | none =>
        rw [advance_return top next]
        exact .return_ top' next
      | some listener =>
        rw [advance_call top next, abstraction_call (inv.called top listener)]
        · exact .call top' next
        rintro frame ⟨⟩
        rfl
    | firing =>
      rw [advance_apply top]
      exact abstraction_apply top left (inv.idle_of_top top rfl rfl)
    | adding =>
      rw [advance_add top, abstraction_append left]
      exact .add top'
    | removingAll keys =>
      have noLoop := inv.noLoop_of_top top rfl
      cases keys with
      | nil =>
        have moved := inv.replace .clearing top rfl rfl rfl
        rw [advance_last top]
        refine .last top' (abstraction_removeAllListeners moved ?_ _)
        exact forall_mem_cons.mpr ⟨rfl, noLoop⟩
      | cons key keys =>
        have moved := inv.replace (.removingAll keys) top rfl rfl rfl
        by_cases skip : key = .removeListener
        · subst skip
          rw [advance_skip top]
          exact .skip top'
        rw [advance_key top skip]
        refine .key top' skip (abstraction_removeAllListeners moved ?_ _)
        exact forall_mem_cons.mpr ⟨rfl, noLoop⟩
    | clearing =>
      rw [advance_clear top]
      exact .clear top'
    | removingEach type a =>
      have loop : Loop m.emitter type a := inv.loops (top ▸ mem_cons_self)
      have sequence : (abstraction m).emitter type = m.emitter.array a := loop.sequence
      by_cases nothing : m.emitter.array a = []
      · rw [advance_over top nothing]
        exact .none_ top' (sequence.trans nothing)
      rw [advance_each top nothing, abstraction_removeLast inv loop]
      exact .each top' (sequence ▸ nothing)

/-- **Each allowed step is one on the sequences.** -/
theorem Inv.simulated (inv : Inv m) {action : Action} (allowed : m.Allowed action) {m' : State}
    (stepped : m.step action = some m') :
    Spec.Step (abstraction m) action (abstraction m') := by
  unfold State.step at stepped
  split_ifs at stepped with able
  cases action with
  | on =>
    cases stepped
    rw [abstraction_addListener inv (inv.noLoop (Bool.and_eq_true_iff.mp able).1 allowed)]
    exact .on
  | once type listener =>
    cases stepped
    have noLoop := inv.noLoop (Bool.and_eq_true_iff.mp able).1 allowed
    have made : Inv { m with closures := m.closures ++ [(type, listener)] } :=
      inv.suffix rfl suffix_rfl
    rw [State.once, abstraction_addListener made noLoop]
    exact .once
  | removeListener =>
    cases stepped
    rw [abstraction_removeListener inv]
    exact .removeListener
  | removeAllListeners type =>
    cases stepped
    exact .removeAllListeners
      (abstraction_removeAllListeners inv (inv.noLoop able allowed) type)
  | emit =>
    cases stepped
    rw [abstraction_emit inv]
    exact .emit
  | returns =>
    cases stepped
    have tail : abstraction { m with stack := m.stack.tail } =
        { abstraction m with stack := (abstraction m).stack.tail } := by
      simp [abstraction]
    rw [tail]
    exact .returns
  | throws =>
    cases stepped
    have unwound : abstraction { m with stack := Machine.unwind m.stack.tail } =
        { abstraction m with stack := Machine.unwind (abstraction m).stack.tail } := by
      simp only [abstraction, Machine.unwind, ← map_tail, dropWhile_map,
        Function.comp_def, Frame.isRunning_erase]
    rw [unwound]
    exact .throws
  | advance =>
    cases stepped
    exact .advance (inv.simulated_advance (by simpa [Machine.able] using able))

/-! ## Histories -/

/-- The steps of the program and of the code -/
abbrev Next : State → Action → State → Prop := Permitted State.step Machine.Allowed

/-- The invariant holds wherever allowed actions lead. -/
theorem Inv.of_steps {actions : List Action}
    (steps : Steps Next (Machine.initial .init) actions m) :
    Inv m :=
  steps.invariant Inv .initial fun inv next => inv.step next.1 next.2

theorem listeners_eq (m : State) (type : EventName) :
    m.listeners type = m.emitter.sequence type := by
  rw [State.listeners, Emitter.sequence]
  cases m.emitter.events.get type with
  | none => rfl
  | some handler =>
    cases handler with
    | fn => rfl
    | array a => exact arrayClone_length _

theorem listenerCount_eq (m : State) (type : EventName) :
    m.listenerCount type = (m.emitter.sequence type).length := by
  rw [State.listenerCount, Emitter.sequence]
  cases m.emitter.events.get type with
  | none => rfl
  | some handler => cases handler <;> rfl

theorem Inv.eventsCount_eq (inv : Inv m) :
    m.emitter.eventsCount = {type | m.emitter.sequence type ≠ []}.ncard := by
  have keys : {type | m.emitter.sequence type ≠ []} = m.emitter.events.keys.toFinset := by
    simp [inv.consistent.mem_keys_iff]
  have nodup : m.emitter.events.keys.Nodup := m.emitter.events.nodup
  rw [keys, Set.ncard_coe_finset, toFinset_card_of_nodup nodup, Properties.length_keys,
    inv.consistent.count]

/-- **An emitter is a map from the names of events to sequences of listeners.** Whatever is done
with it, the same has been done with the map; `listeners`, `listenerCount` and `_eventsCount` tell
what is in the map; an `emit` calls the listeners that there were when it began, in their order; and
a function that was passed to `once` is called once at most. -/
theorem refines_sequences {actions : List Action}
    (steps : Steps Next (Machine.initial .init) actions m) :
    Steps Spec.Step (Machine.initial fun _ => []) actions (abstraction m) ∧
      (∀ type, m.listeners type = (abstraction m).emitter type ∧
        m.listenerCount type = ((abstraction m).emitter type).length) ∧
      m.emitter.eventsCount = {type | (abstraction m).emitter type ≠ []}.ncard ∧
      (∀ {n type args listeners}, .started n type args listeners ∈ m.trace →
        calls n m.trace <+: listeners ∧ (.returned n ∈ m.trace → calls n m.trace = listeners)) ∧
      ∀ g, m.trace.count (.applied g) ≤ 1 := by
  have inv : Inv m := Inv.of_steps steps
  have simulated := steps.simulate abstraction Inv .initial
    (fun inv next => inv.step next.1 next.2) (fun inv next => inv.simulated next.1 next.2)
  have orderly : Orderly (abstraction m) :=
    simulated.invariant Orderly (.initial _) fun orderly step => step.orderly orderly
  refine ⟨simulated, fun type => ⟨listeners_eq m type, listenerCount_eq m type⟩,
    inv.eventsCount_eq, orderly.called, orderly.once⟩

/-- A listener and a `once` listener of one event; while the event is emitted the first removes the
second. -/
def removal : List Action :=
  [.on .error (.user 0), .once .error (.user 1), .emit .error [], .advance,
    .removeListener .error (.user 1), .returns, .advance, .advance, .returns, .advance]

/-- The second is called all the same. -/
theorem refines_sequences_removal : ∃ m, Steps Next (Machine.initial .init) removal m ∧
    Steps Spec.Step (Machine.initial fun _ => []) removal (abstraction m) ∧
      calls 0 m.trace = [.user 0, .g 0] ∧ m.listeners .error = [.user 0] := by
  have evaluated : (exec State.step Machine.Allowed (Machine.initial .init) removal).map
      (fun m => (calls 0 m.trace, m.listeners .error)) =
        some ([.user 0, .g 0], [.user 0]) := by decide
  obtain ⟨m, done, shown⟩ := map_eq_some_iff.mp evaluated
  obtain ⟨called, listening⟩ := Prod.mk.inj shown
  have steps : Steps Next (Machine.initial .init) removal m := .of_exec .refl done
  exact ⟨m, steps, (refines_sequences steps).1, called, listening⟩

end IoJs.Events
