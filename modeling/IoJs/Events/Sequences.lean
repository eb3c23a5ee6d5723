import IoJs.Events.Machine
import IoJs.Library.Steps
import Mathlib.Data.Set.Card

/-!
# What an emitter is for

An emitter maps the names of events to sequences of listeners. `addListener` appends one;
`removeListener` takes the last that matches away, where what `once` has made matches the function
that was passed to it; `emit` calls the listeners that there are when it begins, one after the
other. `removeAllListeners` takes the listeners of an event away, one by one and the last one first
if anybody listens to `removeListener`, and in the order of some list of the events if it is about
all of them.
-/

namespace IoJs.Events

open IoJs.Library

/-- The map -/
abbrev Sequences := EventName → List Fn

/-- An emitter as its users see it; an array is what is in it. -/
abbrev Spec := Machine Sequences Unit

namespace Spec

/-- The sequence of an event is another one. -/
def put (type : EventName) (list : List Fn) (m : Spec) : Spec :=
  { m with emitter := Function.update m.emitter type list }

/-- Without the last one that satisfies `p` -/
def eraseLast (p : Fn → Bool) (list : List Fn) : List Fn := (list.reverse.eraseP p).reverse

def emit (type : EventName) (args : List Arg) (m : Spec) : Spec :=
  if m.emitter type = [] then m.refuse type else m.start type args (m.emitter type)

def notifyRemoved (type : EventName) (listener : Fn) (m : Spec) : Spec :=
  if m.emitter .removeListener = [] then m
  else emit .removeListener [.type type, .listener listener] m

def append (type : EventName) (listener : Fn) (m : Spec) : Spec :=
  put type (m.emitter type ++ [listener]) m

def addListener (type : EventName) (listener : Fn) (m : Spec) : Spec :=
  if m.emitter .newListener = [] then append type listener m
  else
    emit .newListener [.type type, .listener ((m.listenerOf listener).getD listener)]
      (m.push (.adding type listener))

def once (type : EventName) (listener : Fn) (m : Spec) : Spec :=
  addListener type (.g m.closures.length)
    { m with closures := m.closures ++ [(type, listener)] }

def removeListener (type : EventName) (listener : Fn) (m : Spec) : Spec :=
  if (m.emitter type).any (m.isEntry listener) then
    notifyRemoved type listener (put type (eraseLast (m.isEntry listener) (m.emitter type)) m)
  else m

/-- `listener` is the last one of the event. -/
def removeLast (type : EventName) (m : Spec) : Spec :=
  match (m.emitter type).getLast? with
  | none => m
  | some listener => removeListener type listener m

/-- `removeAllListeners` can turn `m` into `m'`. -/
inductive RemoveAll (m : Spec) : Option EventName → Spec → Prop where
  /-- nobody listens to `removeListener`: the sequences are dropped at once -/
  | silent (silent : m.emitter .removeListener = []) :
      RemoveAll m none { m with emitter := fun _ => [] }
  | silentOf (silent : m.emitter .removeListener = []) (type : EventName) :
      RemoveAll m (some type) (put type [] m)
  | keys (noticed : m.emitter .removeListener ≠ []) (keys : List EventName) (nodup : keys.Nodup)
      (all : ∀ {type}, type ∈ keys ↔ m.emitter type ≠ []) :
      RemoveAll m none (m.push (.removingAll keys))
  | nothing (noticed : m.emitter .removeListener ≠ []) {type : EventName}
      (nothing : m.emitter type = []) : RemoveAll m (some type) m
  /-- a single listener needs no loop -/
  | one (noticed : m.emitter .removeListener ≠ []) {type : EventName} {listener : Fn}
      (one : m.emitter type = [listener]) :
      RemoveAll m (some type) (removeListener type listener m)
  | each (noticed : m.emitter .removeListener ≠ []) {type : EventName}
      (some_ : m.emitter type ≠ []) :
      RemoveAll m (some type) (removeLast type (m.push (.removingEach type ())))

def call (listener : Fn) (args : List Arg) (m : Spec) : Spec :=
  match listener with
  | .user id => m.push (.running id args)
  | .g id =>
    match m.closures[id]? with
    | none => m
    | some (type, _) => removeListener type (.g id) (m.push (.firing id args))

/-- What comes next where the program does not run -/
inductive Advance (m : Spec) : Spec → Prop where
  /-- the next listener of the copy is called -/
  | call {n : Nat} {type : EventName} {args : List Arg} {listeners : List Fn} {i : Nat}
      {rest : List (Frame Unit)} (top : m.stack = .emitting n type args listeners i :: rest)
      {listener : Fn} (next : listeners[i]? = some listener) :
      Advance m (call listener args
        ({ m with stack := .emitting n type args listeners (i + 1) :: rest }.log
          (.called n listener)))
  /-- all have been called -/
  | return_ {n : Nat} {type : EventName} {args : List Arg} {listeners : List Fn} {i : Nat}
      {rest : List (Frame Unit)} (top : m.stack = .emitting n type args listeners i :: rest)
      (done : listeners[i]? = none) : Advance m ({ m with stack := rest }.log (.returned n))
  /-- `g` has removed itself, and calls its function -/
  | fire {id : Nat} {args : List Arg} {rest : List (Frame Unit)}
      (top : m.stack = .firing id args :: rest) (first : id ∉ m.fired) {listener : Fn}
      (closure : m.listenerOf (.g id) = some listener) :
      Advance m (call listener args
        ({ m with stack := rest, fired := id :: m.fired }.log (.applied id)))
  /-- `g` has called its function before -/
  | fired {id : Nat} {args : List Arg} {rest : List (Frame Unit)}
      (top : m.stack = .firing id args :: rest)
      (again : id ∈ m.fired ∨ m.listenerOf (.g id) = none) : Advance m { m with stack := rest }
  | add {type : EventName} {listener : Fn} {rest : List (Frame Unit)}
      (top : m.stack = .adding type listener :: rest) :
      Advance m (append type listener { m with stack := rest })
  /-- `removeListener` is the last one. -/
  | skip {keys : List EventName} {rest : List (Frame Unit)}
      (top : m.stack = .removingAll (.removeListener :: keys) :: rest) :
      Advance m { m with stack := .removingAll keys :: rest }
  | key {key : EventName} {keys : List EventName} {rest : List (Frame Unit)}
      (top : m.stack = .removingAll (key :: keys) :: rest) (other : key ≠ .removeListener)
      {m' : Spec}
      (removed : RemoveAll { m with stack := .removingAll keys :: rest } (some key) m') :
      Advance m m'
  | last {rest : List (Frame Unit)} (top : m.stack = .removingAll [] :: rest) {m' : Spec}
      (removed : RemoveAll { m with stack := .clearing :: rest } (some .removeListener) m') :
      Advance m m'
  | clear {rest : List (Frame Unit)} (top : m.stack = .clearing :: rest) :
      Advance m { m with stack := rest, emitter := fun _ => [] }
  | each {type : EventName} {rest : List (Frame Unit)}
      (top : m.stack = .removingEach type () :: rest) (some_ : m.emitter type ≠ []) :
      Advance m (removeLast type m)
  | none_ {type : EventName} {rest : List (Frame Unit)}
      (top : m.stack = .removingEach type () :: rest) (none_ : m.emitter type = []) :
      Advance m { m with stack := rest }

inductive Step (m : Spec) : Action → Spec → Prop where
  | on {type : EventName} {listener : Fn} : Step m (.on type listener) (addListener type listener m)
  | once {type : EventName} {listener : Fn} : Step m (.once type listener) (once type listener m)
  | removeListener {type : EventName} {listener : Fn} :
      Step m (.removeListener type listener) (removeListener type listener m)
  | removeAllListeners {type : Option EventName} {m' : Spec} (removed : RemoveAll m type m') :
      Step m (.removeAllListeners type) m'
  | emit {type : EventName} {args : List Arg} : Step m (.emit type args) (emit type args m)
  | returns : Step m .returns { m with stack := m.stack.tail }
  | throws : Step m .throws { m with stack := Machine.unwind m.stack.tail }
  | advance {m' : Spec} (next : Advance m m') : Step m .advance m'

end Spec

end IoJs.Events
