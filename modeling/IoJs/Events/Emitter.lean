import IoJs.Library.Properties
import IoJs.RegExp

/-!
# The table of listeners

An emitter has a table: under the name of an event is a function, or an array of functions, or
nothing. Arrays are objects, and what has been read from the table may change afterwards, so the
table has their identities. `sequence` is what the table stands for: the functions that listen to
an event, in the order in which they are called.
-/

namespace IoJs.Events

open Function (update_of_ne update_self)
open IoJs.Stream IoJs.RegExp IoJs.Library

/-- The names of the properties of `Object.prototype` -/
def objectPrototype : List JSString :=
  ["__defineGetter__", "__defineSetter__", "__lookupGetter__", "__lookupSetter__", "__proto__",
    "constructor", "hasOwnProperty", "isPrototypeOf", "propertyIsEnumerable", "toLocaleString",
    "toString", "valueOf"].map js

abbrev EventName := { text : JSString // text ∉ objectPrototype }

namespace EventName

def error : EventName := ⟨js "error", by decide⟩

def newListener : EventName := ⟨js "newListener", by decide⟩

def removeListener : EventName := ⟨js "removeListener", by decide⟩

end EventName

/-- A function: one of the program's, or a `g` that `once` has made -/
inductive Fn where
  | user (id : Nat)
  | g (id : Nat)
  deriving DecidableEq

/-- What is in the table -/
inductive Handler where
  | fn (listener : Fn)
  | array (id : Nat)

/-- An emitter, with all arrays that it has made -/
structure Emitter where
  /-- `_events` -/
  events : Properties EventName Handler
  /-- `_eventsCount` -/
  eventsCount : Int
  arrays : List (List Fn)

namespace Emitter

/-- `EventEmitter.init` -/
def init : Emitter := ⟨.empty, 0, []⟩

/-- The items of an array -/
def array (a : Nat) (e : Emitter) : List Fn := e.arrays[a]?.getD []

/-- The listeners of a handler -/
def items (e : Emitter) : Handler → List Fn
  | .fn listener => [listener]
  | .array a => e.array a

/-- The listeners of an event -/
def sequence (e : Emitter) (type : EventName) : List Fn :=
  match e.events.get type with
  | none => []
  | some handler => e.items handler

/-- `if (--this._eventsCount === 0) this._events = {}; else delete events[type];` -/
def forget (type : EventName) (e : Emitter) : Emitter :=
  let e := { e with eventsCount := e.eventsCount - 1 }
  if e.eventsCount = 0 then { e with events := .empty }
  else { e with events := e.events.delete type }

/-- The array has other items now. -/
def setArray (a : Nat) (list : List Fn) (e : Emitter) : Emitter :=
  { e with arrays := e.arrays.set a list }

/-- What `addListener` does to the table -/
def add (type : EventName) (listener : Fn) (e : Emitter) : Emitter :=
  match e.events.get type with
  | none => { e with events := e.events.set type (.fn listener), eventsCount := e.eventsCount + 1 }
  | some (.fn existing) =>
    { e with
      events := e.events.set type (.array e.arrays.length)
      arrays := e.arrays ++ [[existing, listener]] }
  | some (.array a) => e.setArray a (e.array a ++ [listener])

/-- `this._events = {}; this._eventsCount = 0;` -/
def clear (e : Emitter) : Emitter := { e with events := .empty, eventsCount := 0 }

/-! ## Consistent tables -/

/-- The table is as it should be. -/
structure Consistent (e : Emitter) : Prop where
  filled : ∀ {type a}, e.events.get type = some (.array a) → e.array a ≠ []
  distinct : ∀ {type type' a}, e.events.get type = some (.array a) →
    e.events.get type' = some (.array a) → type = type'
  count : e.eventsCount = e.events.size

variable {e : Emitter} {type type' : EventName} {a : Nat} {list : List Fn} {listener : Fn}
variable {handler : Handler} {existing : Fn}

theorem init_consistent : init.Consistent where
  filled := by rintro type a ⟨⟩
  distinct := by rintro type type' a ⟨⟩
  count := rfl

theorem clear_consistent (e : Emitter) : e.clear.Consistent where
  filled := by rintro type a ⟨⟩
  distinct := by rintro type type' a ⟨⟩
  count := rfl

theorem lt_of_array_ne_nil (some_ : e.array a ≠ []) : a < e.arrays.length := by
  by_contra beyond
  rw [array, List.getElem?_eq_none (Nat.le_of_not_lt beyond)] at some_
  exact some_ rfl

theorem sequence_of_none (none_ : e.events.get type = none) : e.sequence type = [] := by
  rw [sequence, none_]

theorem sequence_of_some (here : e.events.get type = some handler) :
    e.sequence type = e.items handler := by
  rw [sequence, here]

theorem sequence_of_fn (here : e.events.get type = some (.fn listener)) :
    e.sequence type = [listener] := sequence_of_some here

theorem sequence_of_array (here : e.events.get type = some (.array a)) :
    e.sequence type = e.array a := sequence_of_some here

theorem Consistent.items_ne_nil (consistent : e.Consistent)
    (here : e.events.get type = some handler) : e.items handler ≠ [] := by
  cases handler with
  | fn => exact List.cons_ne_nil _ _
  | array a => exact consistent.filled here

theorem Consistent.sequence_eq_nil_iff (consistent : e.Consistent) :
    e.sequence type = [] ↔ e.events.get type = none := by
  constructor
  · intro nil
    cases here : e.events.get type with
    | none => rfl
    | some =>
      rw [sequence_of_some here] at nil
      exact absurd nil (consistent.items_ne_nil here)
  · exact sequence_of_none

theorem Consistent.mem_keys_iff (consistent : e.Consistent) :
    type ∈ e.events.keys ↔ e.sequence type ≠ [] := by
  rw [ne_eq, consistent.sequence_eq_nil_iff, Properties.get_eq_none_iff, not_not]

/-! ## Leaving an event out -/

theorem forget_arrays : (e.forget type).arrays = e.arrays := by
  rw [forget]
  split_ifs <;> rfl

theorem forget_eventsCount : (e.forget type).eventsCount = e.eventsCount - 1 := by
  rw [forget]
  split_ifs <;> rfl

section

variable (consistent : e.Consistent) (here : (e.events.get type).isSome = true)
include consistent here

theorem Consistent.get_forget (other : EventName) :
    (e.forget type).events.get other = if other = type then none else e.events.get other := by
  rw [forget]
  have one := Properties.size_delete here
  have count := consistent.count
  split_ifs with last same same
  · rfl
  · have empty : (e.events.delete type).size = 0 := by
      simp only at last
      omega
    have gone : (e.events.delete type).get other = e.events.get other :=
      Properties.get_delete_of_ne same
    rw [Properties.eq_empty_of_size empty] at gone
    exact gone
  · exact same ▸ Properties.get_delete_self
  · exact Properties.get_delete_of_ne same

theorem Consistent.size_forget : ((e.forget type).events.size : Int) = e.events.size - 1 := by
  have one := Properties.size_delete here
  have count := consistent.count
  rw [forget]
  split_ifs with last
  · simp only at last
    rw [Properties.size_empty]
    omega
  simp only
  omega

theorem get_of_get_forget
    {other : EventName} (kept : (e.forget type).events.get other = some handler) :
    other ≠ type ∧ e.events.get other = some handler := by
  rw [consistent.get_forget here] at kept
  by_cases same : other = type
  · rw [if_pos same] at kept
    cases kept
  rw [if_neg same] at kept
  exact ⟨same, kept⟩

theorem Consistent.forget : (e.forget type).Consistent where
  filled := by
    intro other a kept
    obtain ⟨-, before⟩ := get_of_get_forget consistent here kept
    rw [array, forget_arrays]
    exact consistent.filled before
  distinct := by
    intro first second a kept kept'
    exact consistent.distinct (get_of_get_forget consistent here kept).2
      (get_of_get_forget consistent here kept').2
  count := by rw [forget_eventsCount, consistent.count, consistent.size_forget here]

end

theorem sequence_congr {e' : Emitter} (same : e'.events.get type = e.events.get type)
    (arrays : ∀ {a}, e.events.get type = some (.array a) → e'.array a = e.array a) :
    e'.sequence type = e.sequence type := by
  rw [sequence, sequence, same]
  cases here : e.events.get type with
  | none => rfl
  | some handler =>
    cases handler with
    | fn => rfl
    | array a => exact arrays here

theorem Consistent.sequence_forget (consistent : e.Consistent)
    (here : (e.events.get type).isSome = true) :
    (e.forget type).sequence = Function.update e.sequence type [] := by
  funext other
  have left := consistent.get_forget here other
  by_cases same : other = type
  · subst same
    rw [if_pos rfl] at left
    rw [update_self, sequence_of_none left]
  rw [if_neg same] at left
  rw [update_of_ne same]
  refine sequence_congr left fun {a} _ => ?_
  rw [array, forget_arrays, array]

/-! ## Changing an array -/

theorem array_setArray_self (known : a < e.arrays.length) : (e.setArray a list).array a = list := by
  rw [array, setArray, List.getElem?_set_self known]
  rfl

theorem array_setArray_of_ne {a' : Nat} (other : a' ≠ a) :
    (e.setArray a list).array a' = e.array a' := by
  rw [array, setArray, List.getElem?_set_ne other.symm, array]

theorem Consistent.setArray (consistent : e.Consistent) (here : e.events.get type = some (.array a))
    (some_ : list ≠ []) : (e.setArray a list).Consistent where
  filled := by
    intro other a' held
    by_cases same : a' = a
    · subst same
      rwa [array_setArray_self (lt_of_array_ne_nil (consistent.filled here))]
    rw [array_setArray_of_ne same]
    exact consistent.filled held
  distinct := consistent.distinct
  count := consistent.count

theorem Consistent.sequence_setArray (consistent : e.Consistent)
    (here : e.events.get type = some (.array a)) :
    (e.setArray a list).sequence = Function.update e.sequence type list := by
  funext other
  by_cases same : other = type
  · subst same
    rw [update_self, sequence_of_some (e := e.setArray a list) here]
    exact array_setArray_self (lt_of_array_ne_nil (consistent.filled here))
  rw [update_of_ne same]
  refine sequence_congr rfl fun held => array_setArray_of_ne fun eq => ?_
  subst eq
  exact same (consistent.distinct held here)

theorem Consistent.setArray_absent (consistent : e.Consistent)
    (absent : ∀ type, e.events.get type ≠ some (.array a)) :
    (e.setArray a list).Consistent where
  filled := by
    intro type a' held
    have other : a' ≠ a := by
      rintro rfl
      exact absent type held
    rw [array_setArray_of_ne other]
    exact consistent.filled held
  distinct := consistent.distinct
  count := consistent.count

theorem sequence_setArray_absent (absent : ∀ type, e.events.get type ≠ some (.array a)) :
    (e.setArray a list).sequence = e.sequence := by
  funext type
  exact sequence_congr rfl fun held => array_setArray_of_ne fun same => absent type (same ▸ held)

theorem Consistent.absent_forget (consistent : e.Consistent)
    (here : e.events.get type = some (.array a)) (other : EventName) :
    (e.forget type).events.get other ≠ some (.array a) := by
  intro held
  obtain ⟨different, before⟩ := get_of_get_forget consistent (Option.isSome_of_eq_some here) held
  exact different (consistent.distinct before here)

theorem forget_setArray : (e.setArray a list).forget type = (e.forget type).setArray a list := by
  rw [forget, forget, setArray, setArray]
  by_cases last : e.eventsCount - 1 = 0
  · simp only [if_pos last]
  · simp only [if_neg last]

/-! ## Adding a listener -/

theorem array_append (known : a < e.arrays.length) (events : Properties EventName Handler) :
    ({ e with events := events, arrays := e.arrays ++ [list] } : Emitter).array a = e.array a := by
  rw [array, List.getElem?_append_left known, array]

theorem array_append_new (events : Properties EventName Handler) :
    ({ e with events := events, arrays := e.arrays ++ [list] } : Emitter).array e.arrays.length =
      list := by
  rw [array, List.getElem?_append_right (Nat.le_refl _), Nat.sub_self]
  rfl

theorem add_of_none (none_ : e.events.get type = none) : e.add type listener =
    { e with events := e.events.set type (.fn listener), eventsCount := e.eventsCount + 1 } := by
  rw [add, none_]

theorem add_of_fn (here : e.events.get type = some (.fn existing)) : e.add type listener = { e with
    events := e.events.set type (.array e.arrays.length)
    arrays := e.arrays ++ [[existing, listener]] } := by
  rw [add, here]

theorem add_of_array (here : e.events.get type = some (.array a)) :
    e.add type listener = e.setArray a (e.array a ++ [listener]) := by
  rw [add, here]

section

variable (consistent : e.Consistent)
include consistent

theorem Consistent.add_first (none_ : e.events.get type = none) :
    (e.add type listener).Consistent := by
  rw [add_of_none none_]
  have held : ∀ {other a}, (e.events.set type (.fn listener)).get other = some (.array a) →
      e.events.get other = some (.array a) := by
    intro other a here
    rw [Properties.get_set] at here
    by_cases same : other = type
    · rw [if_pos same] at here
      cases here
    · rwa [if_neg same] at here
  refine ⟨fun here => consistent.filled (held here),
    fun here here' => consistent.distinct (held here) (held here'), ?_⟩
  simp only [Properties.size_set_of_new none_, consistent.count]
  omega

theorem Consistent.add_second
    (here : e.events.get type = some (.fn existing)) : (e.add type listener).Consistent := by
  have old : (e.events.get type).isSome = true := by
    rw [here]
    rfl
  rw [add_of_fn here]
  have held : ∀ {other a},
      (e.events.set type (.array e.arrays.length)).get other = some (.array a) →
        other = type ∧ a = e.arrays.length ∨
          a < e.arrays.length ∧ e.events.get other = some (.array a) := by
    intro other a here
    rw [Properties.get_set] at here
    by_cases same : other = type
    · rw [if_pos same] at here
      cases here
      exact .inl ⟨same, rfl⟩
    rw [if_neg same] at here
    exact .inr ⟨lt_of_array_ne_nil (consistent.filled here), here⟩
  refine ⟨?_, ?_, ?_⟩
  · intro other a here
    rcases held here with ⟨-, rfl⟩ | ⟨known, before⟩
    · rw [array_append_new]
      exact List.cons_ne_nil _ _
    rw [array_append known]
    exact consistent.filled before
  · intro first second a here here'
    rcases held here with ⟨same, new⟩ | ⟨known, before⟩ <;>
      rcases held here' with ⟨same', new'⟩ | ⟨known', before'⟩
    · exact same.trans same'.symm
    · omega
    · omega
    · exact consistent.distinct before before'
  · simp only [Properties.size_set_of_old old, consistent.count]

theorem Consistent.add : (e.add type listener).Consistent := by
  cases here : e.events.get type with
  | none => exact consistent.add_first here
  | some handler =>
    cases handler with
    | fn => exact consistent.add_second here
    | array a =>
      rw [add_of_array here]
      exact consistent.setArray here (List.append_ne_nil_of_right_ne_nil _ (List.cons_ne_nil _ _))

theorem Consistent.sequence_add : (e.add type listener).sequence =
    Function.update e.sequence type (e.sequence type ++ [listener]) := by
  cases here : e.events.get type with
  | none =>
    rw [add_of_none here, sequence_of_none here]
    funext other
    by_cases same : other = type
    · subst same
      rw [update_self]
      exact sequence_of_fn Properties.get_set_self
    rw [update_of_ne same]
    exact sequence_congr (Properties.get_set_of_ne same) fun _ => rfl
  | some handler =>
    cases handler with
    | fn =>
      rw [add_of_fn here, sequence_of_some here]
      funext other
      by_cases same : other = type
      · subst same
        rw [update_self]
        exact (sequence_of_array Properties.get_set_self).trans (array_append_new _)
      rw [update_of_ne same]
      exact sequence_congr (Properties.get_set_of_ne same) fun held =>
        array_append (lt_of_array_ne_nil (consistent.filled held)) _
    | array a =>
      rw [add_of_array here, consistent.sequence_setArray here, sequence_of_some here]
      rfl

end

end Emitter

end IoJs.Events
