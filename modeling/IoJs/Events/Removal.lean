import IoJs.Events.Sequences

/-!
# Removing a listener

`removeListener` looks for a listener from the end of an array and moves the items behind it to the
front: what is left is the array without the last item that matches (`spliceOne_search`). A lone
function is forgotten, and so is an array of one item; in each case the emitter is left
`Consistent`, and the sequence of the event has lost its last match (`removeListener_eq`).
-/

namespace IoJs.Events

open IoJs.Library List Option

variable {p : Fn → Bool} {list rest : List Fn} {x : Fn} {i : Nat}
variable {position : Nat} {listener : Fn} {m : State}

/-! ## Arrays -/

theorem search_append (bound : i ≤ list.length) : search p (list ++ rest) i = search p list i := by
  induction i with
  | zero => rfl
  | succ i ih => rw [search, search, List.getElem?_append_left bound, ih (Nat.le_of_succ_le bound)]

theorem search_append_singleton : search p (list ++ [x]) (list ++ [x]).length =
    if p x then some list.length else search p list list.length := by
  rw [length_append, length_singleton, search, List.getElem?_append_right (Nat.le_refl _),
    Nat.sub_self, search_append (Nat.le_refl _)]
  rfl

theorem eraseLast_append_singleton :
    Spec.eraseLast p (list ++ [x]) = if p x then list else Spec.eraseLast p list ++ [x] := by
  rw [Spec.eraseLast, Spec.eraseLast, reverse_append, reverse_singleton,
    singleton_append, eraseP_cons]
  cases p x with
  | true => exact reverse_reverse list
  | false => exact reverse_cons

theorem any_eq_false_of_search (absent : search p list list.length = none) :
    list.any p = false := by
  induction list using List.reverseRecOn with
  | nil => rfl
  | append_singleton list x ih =>
    rw [search_append_singleton] at absent
    split_ifs at absent with found
    rw [any_append, ih absent, any_cons, Bool.eq_false_iff.mpr found]
    rfl

theorem eraseIdx_of_search (found : search p list list.length = some position) :
    position < list.length ∧ list.any p = true ∧
      list.eraseIdx position = Spec.eraseLast p list := by
  induction list using List.reverseRecOn with
  | nil => cases found
  | append_singleton list x ih =>
    rw [search_append_singleton] at found
    rw [eraseLast_append_singleton, any_append, length_append, length_singleton]
    by_cases here : p x = true
    · rw [if_pos here] at found ⊢
      cases found
      refine ⟨Nat.lt_succ_self _, ?_, ?_⟩
      · rw [any_cons, here, Bool.true_or, Bool.or_true]
      rw [eraseIdx_append_of_length_le (Nat.le_refl _), Nat.sub_self]
      exact append_nil _
    rw [if_neg here] at found ⊢
    obtain ⟨bound, some_, erased⟩ := ih found
    refine ⟨Nat.lt_succ_of_lt bound, ?_, ?_⟩
    · rw [some_, Bool.true_or]
    · rw [eraseIdx_append_of_lt_length bound, erased]

theorem spliceLoop_eq (before : List Fn) (x : Fn) (rest : List Fn) :
    (spliceLoop (before ++ x :: rest) before.length rest.length).dropLast = before ++ rest := by
  induction rest generalizing before x with
  | nil =>
    rw [append_nil]
    exact dropLast_concat
  | cons y rest ih =>
    have next : (before ++ x :: y :: rest)[before.length + 1]? = some y := by
      rw [List.getElem?_append_right (Nat.le_succ _), Nat.succ_sub (Nat.le_refl _), Nat.sub_self]
      rfl
    have moved : (before ++ x :: y :: rest).set before.length y = (before ++ [y]) ++ y :: rest := by
      rw [set_append_right _ _ (Nat.le_refl _), Nat.sub_self, append_assoc]
      rfl
    have more := ih (before ++ [y]) y
    rw [length_append, length_singleton] at more
    rw [length_cons, spliceLoop, next, getD_some, moved, more, append_assoc, singleton_append]

theorem spliceOne_eq (bound : i < list.length) : spliceOne list i = list.eraseIdx i := by
  have split : list = list.take i ++ list[i] :: list.drop (i + 1) := by
    rw [cons_getElem_drop_succ, take_append_drop]
  have length : (list.take i).length = i := length_take_of_le (Nat.le_of_lt bound)
  have moved := spliceLoop_eq (list.take i) list[i] (list.drop (i + 1))
  rw [← split, length, length_drop] at moved
  rw [spliceOne, moved, eraseIdx_eq_take_drop_succ]

theorem spliceOne_search (found : search p list list.length = some position) :
    spliceOne list position = Spec.eraseLast p list := by
  obtain ⟨bound, -, erased⟩ := eraseIdx_of_search found
  rw [spliceOne_eq bound, erased]

/-! ## Arrays that a loop has read -/

/-- `removeAllListeners` has read an array. -/
inductive Loop (e : Emitter) (type : EventName) (a : Nat) : Prop where
  | there (here : e.events.get type = some (.array a))
  | dropped (none_ : e.events.get type = none) (nothing : e.array a = [])

variable {e : Emitter} {type type' : EventName} {a a' : Nat}

section

variable (loop : Loop e type a)
include loop

theorem Loop.sequence : e.sequence type = e.array a := by
  cases loop with
  | there here => exact Emitter.sequence_of_array here
  | dropped none_ nothing => rw [nothing, Emitter.sequence_of_none none_]

theorem Loop.forget_fn (consistent : e.Consistent)
    (here : e.events.get type' = some (.fn listener)) : Loop (e.forget type') type a := by
  have some_ := isSome_of_eq_some here
  have array : (e.forget type').array a = e.array a := by
    rw [Emitter.array, Emitter.forget_arrays, Emitter.array]
  have left := consistent.get_forget some_ type
  cases loop with
  | there held =>
    have other : type ≠ type' := by
      rintro rfl
      rw [here] at held
      cases held
    rw [if_neg other] at left
    exact .there (left.trans held)
  | dropped none_ nothing =>
    refine .dropped ?_ (array.trans nothing)
    rw [left, none_, ite_self]

theorem Loop.setArray (consistent : e.Consistent)
    (here : e.events.get type' = some (.array a')) : Loop (e.setArray a' list) type a := by
  cases loop with
  | there held => exact .there held
  | dropped none_ nothing =>
    refine .dropped none_ ?_
    rw [Emitter.array_setArray_of_ne, nothing]
    rintro rfl
    exact consistent.filled here nothing

theorem Loop.forget_array (consistent : e.Consistent)
    (here : e.events.get type' = some (.array a')) :
    Loop ((e.forget type').setArray a' []) type a := by
  have some_ := isSome_of_eq_some here
  have array : (e.forget type').array a = e.array a := by
    rw [Emitter.array, Emitter.forget_arrays, Emitter.array]
  have left := consistent.get_forget some_ type
  by_cases same : type = type'
  · subst same
    rw [if_pos rfl] at left
    refine .dropped left ?_
    cases loop with
    | there held =>
      rw [here] at held
      cases held
      refine Emitter.array_setArray_self ?_
      rw [Emitter.forget_arrays]
      exact Emitter.lt_of_array_ne_nil (consistent.filled here)
    | dropped none_ _ =>
      rw [none_] at here
      cases here
  rw [if_neg same] at left
  cases loop with
  | there held => exact .there (left.trans held)
  | dropped none_ nothing =>
    refine .dropped (left.trans none_) ?_
    rw [Emitter.array_setArray_of_ne, array, nothing]
    rintro rfl
    exact consistent.filled here nothing

end

/-! ## The whole method -/

/-- The emitter that is left when the sequence of an event is another one -/
structure Removed (e e' : Emitter) (type : EventName) (list : List Fn) : Prop where
  consistent : e'.Consistent
  sequence : e'.sequence = Function.update e.sequence type list
  loops : ∀ {type' a}, Loop e type' a → Loop e' type' a

theorem removed_fn (consistent : e.Consistent)
    (here : e.events.get type = some (.fn listener)) : Removed e (e.forget type) type [] where
  consistent := consistent.forget (isSome_of_eq_some here)
  sequence := consistent.sequence_forget (isSome_of_eq_some here)
  loops := fun loop => loop.forget_fn consistent here

theorem removed_array (consistent : e.Consistent) (here : e.events.get type = some (.array a)) :
    Removed e ((e.setArray a []).forget type) type [] := by
  have some_ := isSome_of_eq_some here
  have absent := consistent.absent_forget here
  rw [Emitter.forget_setArray]
  refine ⟨(consistent.forget some_).setArray_absent absent, ?_, fun loop =>
    loop.forget_array consistent here⟩
  rw [Emitter.sequence_setArray_absent absent, consistent.sequence_forget some_]

theorem removed_item (consistent : e.Consistent) (here : e.events.get type = some (.array a))
    (some_ : list ≠ []) : Removed e (e.setArray a list) type list where
  consistent := consistent.setArray here some_
  sequence := consistent.sequence_setArray here
  loops := fun loop => loop.setArray consistent here

theorem notifyRemoved_of_empty (consistent : m.emitter.Consistent)
    (empty : m.emitter.eventsCount = 0) : State.notifyRemoved type listener m = m := by
  have size : m.emitter.events.size = 0 := by
    have count := consistent.count
    omega
  rw [State.notifyRemoved, Properties.eq_empty_of_size size]
  rfl

theorem ite_notifyRemoved (consistent : m.emitter.Consistent) :
    (if m.emitter.eventsCount = 0 then m else State.notifyRemoved type listener m) =
      State.notifyRemoved type listener m := by
  by_cases empty : m.emitter.eventsCount = 0
  · rw [if_pos empty, notifyRemoved_of_empty consistent empty]
  · rw [if_neg empty]

variable {m : State} {listener : Fn}

theorem removeListener_of_not_any
    (absent : (m.emitter.sequence type).any (m.isEntry listener) = false) :
    State.removeListener type listener m = m := by
  rw [State.removeListener]
  cases here : m.emitter.events.get type with
  | none => rfl
  | some handler =>
    cases handler with
    | fn list =>
      rw [Emitter.sequence_of_fn here, any_cons, any_nil, Bool.or_false] at absent
      simp only [absent, Bool.false_eq_true, if_false]
    | array a =>
      rw [Emitter.sequence_of_array here] at absent
      cases found : search (m.isEntry listener) (m.emitter.array a)
          (m.emitter.array a).length with
      | none => simp only [found]
      | some =>
        rw [(eraseIdx_of_search found).2.1] at absent
        cases absent

theorem eraseLast_singleton (found : p x = true) : Spec.eraseLast p [x] = [] := by
  rw [Spec.eraseLast, reverse_singleton, eraseP_cons_of_pos found]
  rfl

theorem removeListener_eq (consistent : m.emitter.Consistent)
    (some_ : (m.emitter.sequence type).any (m.isEntry listener) = true) :
    ∃ e', Removed m.emitter e' type
        (Spec.eraseLast (m.isEntry listener) (m.emitter.sequence type)) ∧
      State.removeListener type listener m =
        State.notifyRemoved type listener { m with emitter := e' } := by
  rw [State.removeListener]
  cases here : m.emitter.events.get type with
  | none =>
    rw [Emitter.sequence_of_none here] at some_
    cases some_
  | some handler =>
    cases handler with
    | fn list =>
      rw [Emitter.sequence_of_fn here] at some_ ⊢
      have found : m.isEntry listener list = true := by
        rwa [any_cons, any_nil, Bool.or_false] at some_
      have removed := removed_fn consistent here
      refine ⟨_, ?_, (if_pos found).trans (ite_notifyRemoved ?_)⟩
      · rwa [eraseLast_singleton found]
      · exact removed.consistent
    | array a =>
      rw [Emitter.sequence_of_array here] at some_ ⊢
      cases found : search (m.isEntry listener) (m.emitter.array a)
          (m.emitter.array a).length with
      | none =>
        rw [any_eq_false_of_search found] at some_
        cases some_
      | some position =>
        obtain ⟨bound, -, erased⟩ := eraseIdx_of_search found
        simp only [found]
        by_cases one : (m.emitter.array a).length = 1
        · have removed := removed_array consistent here
          have last : position = 0 := by omega
          have nothing : Spec.eraseLast (m.isEntry listener) (m.emitter.array a) = [] := by
            subst last
            rw [← erased, ← length_eq_zero_iff, length_eraseIdx_of_lt bound, one]
          refine ⟨(m.emitter.setArray a []).forget type, ?_, (if_pos one).trans ?_⟩
          · rwa [nothing]
          exact ite_notifyRemoved
            (m := { m with emitter := (m.emitter.setArray a []).forget type })
            removed.consistent
        refine ⟨_, ?_, if_neg one⟩
        rw [← spliceOne_search found]
        refine removed_item consistent here ?_
        rw [spliceOne_eq bound, ne_eq, ← length_eq_zero_iff, length_eraseIdx_of_lt bound]
        omega

end IoJs.Events
