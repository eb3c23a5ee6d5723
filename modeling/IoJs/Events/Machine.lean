import IoJs.Events.Emitter

/-!
# Emitters at work

Listeners call methods of the emitter that has called them, so what is under way is a stack: a
listener of the program runs, an `emit` is in the loop over its copy of the listeners, a `g` of
`once` is removing itself, `addListener` is emitting `newListener`, or `removeAllListeners` is in
one of its loops. The program acts where it runs, at the top level or in a listener; everywhere
else there is one next step (`advance`).
-/

namespace IoJs.Events

open IoJs.Stream IoJs.RegExp IoJs.Library

/-- An argument of a listener -/
inductive Arg where
  | type (type : EventName)
  | listener (listener : Fn)
  | other (id : Nat)
  deriving DecidableEq

/-- What is under way; `Ref` is how an array is referred to. -/
inductive Frame (Ref : Type) where
  /-- a listener of the program -/
  | running (listener : Nat) (args : List Arg)
  /-- `listeners[i]` is called next -/
  | emitting (n : Nat) (type : EventName) (args : List Arg) (listeners : List Fn) (i : Nat)
  /-- `this.removeListener(type, g)` -/
  | firing (g : Nat) (args : List Arg)
  /-- `this.emit('newListener', …)` -/
  | adding (type : EventName) (listener : Fn)
  /-- the keys that are left -/
  | removingAll (keys : List EventName)
  /-- `this.removeAllListeners('removeListener')` -/
  | clearing
  /-- the loop over the listeners of one event -/
  | removingEach (type : EventName) (listeners : Ref)

/-- What can be seen of the calls. Every `emit` that calls listeners has a number. -/
inductive Event where
  | started (n : Nat) (type : EventName) (args : List Arg) (listeners : List Fn)
  | called (n : Nat) (listener : Fn)
  | returned (n : Nat)
  /-- `emit` returns `false`. -/
  | refused (type : EventName)
  /-- Unhandled `'error'` event -/
  | threw
  /-- `g` calls the function that was passed to `once`. -/
  | applied (g : Nat)
  deriving DecidableEq

/-- What the program does where it runs, and `advance` where it does not. -/
inductive Action where
  | on (type : EventName) (listener : Fn)
  | once (type : EventName) (listener : Fn)
  | removeListener (type : EventName) (listener : Fn)
  | removeAllListeners (type : Option EventName)
  | emit (type : EventName) (args : List Arg)
  | returns
  | throws
  | advance

/-- An emitter with what is under way -/
structure Machine (Store Ref : Type) where
  emitter : Store
  /-- `type` and `listener` of the functions that `once` has made -/
  closures : List (EventName × Fn)
  /-- those of them whose `fired` is `true` -/
  fired : List Nat
  stack : List (Frame Ref)
  emissions : Nat
  trace : List Event

/-- The code at work -/
abbrev State := Machine Emitter Nat

namespace Frame

variable {Ref : Type}

def isRunning : Frame Ref → Bool
  | running .. => true
  | _ => false

/-- An `emit` of `newListener` or `removeListener` -/
def isNotice : Frame Ref → Bool
  | emitting _ type .. => type = .newListener ∨ type = .removeListener
  | _ => false

/-- A method that goes on when its own `emit` has returned -/
def isMethod : Frame Ref → Bool
  | adding .. | removingAll _ | clearing | removingEach .. => true
  | _ => false

end Frame

/-! ## What does not depend on the table -/

namespace Machine

variable {Store Ref : Type}

/-- Nothing has happened. -/
def initial (emitter : Store) : Machine Store Ref := ⟨emitter, [], [], [], 0, []⟩

/-- The program is at the top level or in a listener. -/
def user (m : Machine Store Ref) : Bool := m.stack.head?.all Frame.isRunning

/-- No listener of `newListener` or `removeListener` is running. -/
def free (m : Machine Store Ref) : Bool := m.stack.all fun frame => !frame.isNotice

/-- The program can have the function. -/
def knows (m : Machine Store Ref) : Fn → Bool
  | .user _ => true
  | .g id => id < m.closures.length

/-- `f.listener` -/
def listenerOf (m : Machine Store Ref) : Fn → Option Fn
  | .user _ => none
  | .g id => m.closures[id]?.map Prod.snd

/-- `entry === listener || (entry.listener && entry.listener === listener)` -/
def isEntry (m : Machine Store Ref) (listener entry : Fn) : Bool :=
  entry = listener ∨ m.listenerOf entry = some listener

def push (frame : Frame Ref) (m : Machine Store Ref) : Machine Store Ref :=
  { m with stack := frame :: m.stack }

def log (event : Event) (m : Machine Store Ref) : Machine Store Ref :=
  { m with trace := m.trace ++ [event] }

/-- A copy of the listeners is going to be called. -/
def start (type : EventName) (args : List Arg) (listeners : List Fn) (m : Machine Store Ref) :
    Machine Store Ref :=
  { (m.push (.emitting m.emissions type args listeners 0)).log
      (.started m.emissions type args listeners) with emissions := m.emissions + 1 }

/-- What `emit` does if there is no listener -/
def refuse (type : EventName) (m : Machine Store Ref) : Machine Store Ref :=
  m.log (if type = .error then .threw else .refused type)

/-- What is left when a listener has thrown -/
def unwind (stack : List (Frame Ref)) : List (Frame Ref) :=
  stack.dropWhile fun frame => !frame.isRunning

/-- Whether the program, or the code, can do something -/
def able (m : Machine Store Ref) : Action → Bool
  | .on _ listener | .once _ listener | .removeListener _ listener => m.user && m.knows listener
  | .removeAllListeners _ | .emit .. => m.user
  | .returns | .throws => m.user && m.stack ≠ []
  | .advance => !m.user

/-- The listeners of `newListener` and `removeListener` do not modify the emitter. -/
def Allowed (m : Machine Store Ref) : Action → Prop
  | .on .. | .once .. | .removeListener .. | .removeAllListeners _ => m.free
  | _ => True

instance (m : Machine Store Ref) : ∀ action, Decidable (m.Allowed action)
  | .on .. | .once .. | .removeListener .. | .removeAllListeners _ =>
    inferInstanceAs (Decidable (m.free = true))
  | .emit .. | .returns | .throws | .advance => inferInstanceAs (Decidable True)

end Machine

/-! ## Arrays -/

/-- `arrayClone`, whose loop reads the first `i` items -/
def arrayClone (arr : List Fn) (i : Nat) : List Fn := arr.take i

/-- The loop of `spliceOne`: `n` items from `i + 1` on move to the front by one. -/
def spliceLoop (list : List Fn) : Nat → Nat → List Fn
  | _, 0 => list
  | i, n + 1 => spliceLoop (list.set i (list[i + 1]?.getD (.user 0))) (i + 1) n

def spliceOne (list : List Fn) (index : Nat) : List Fn :=
  (spliceLoop list index (list.length - (index + 1))).dropLast

/-- The loop that looks for a listener, from the item before `i` down -/
def search (isEntry : Fn → Bool) (list : List Fn) : Nat → Option Nat
  | 0 => none
  | i + 1 => if list[i]?.any isEntry then some i else search isEntry list i

/-- The number of an array index -/
def arrayIndex (text : JSString) : Option Nat :=
  if text ≠ [] ∧ text.all (fun c => 0x30 ≤ c ∧ c ≤ 0x39) ∧
      (text = js "0" ∨ text.head? ≠ some 0x30) then
    let value := text.foldl (fun n c => 10 * n + (c.toNat - 0x30)) 0
    if value < 2 ^ 32 - 1 then some value else none
  else none

/-- `Object.keys`: array indices come first, in their order. -/
def objectKeys (keys : List EventName) : List EventName :=
  (keys.filter fun key => (arrayIndex key.1).isSome).mergeSort
      (fun key key' => (arrayIndex key.1).getD 0 ≤ (arrayIndex key'.1).getD 0) ++
    keys.filter fun key => !(arrayIndex key.1).isSome

/-! ## The methods -/

namespace State

def emit (type : EventName) (args : List Arg) (m : State) : State :=
  match m.emitter.events.get type with
  | none => m.refuse type
  | some (.fn listener) => m.start type args [listener]
  | some (.array a) => m.start type args (arrayClone (m.emitter.array a) (m.emitter.array a).length)

/-- `if (events.removeListener) this.emit('removeListener', type, listener);` -/
def notifyRemoved (type : EventName) (listener : Fn) (m : State) : State :=
  if (m.emitter.events.get .removeListener).isSome then
    m.emit .removeListener [.type type, .listener listener]
  else m

/-- `addListener`, when `newListener` has been emitted -/
def append (type : EventName) (listener : Fn) (m : State) : State :=
  { m with emitter := m.emitter.add type listener }

def addListener (type : EventName) (listener : Fn) (m : State) : State :=
  if (m.emitter.events.get .newListener).isSome then
    emit .newListener [.type type, .listener ((m.listenerOf listener).getD listener)]
      (m.push (.adding type listener))
  else m.append type listener

def once (type : EventName) (listener : Fn) (m : State) : State :=
  addListener type (.g m.closures.length)
    { m with closures := m.closures ++ [(type, listener)] }

def removeListener (type : EventName) (listener : Fn) (m : State) : State :=
  match m.emitter.events.get type with
  | none => m
  | some (.fn list) =>
    if m.isEntry listener list then
      let m : State := { m with emitter := m.emitter.forget type }
      if m.emitter.eventsCount = 0 then m else m.notifyRemoved type listener
    else m
  | some (.array a) =>
    let list := m.emitter.array a
    match search (m.isEntry listener) list list.length with
    | none => m
    | some position =>
      if list.length = 1 then
        -- `list[0] = undefined`, which only ends the loop of `removeAllListeners`: no item
        let m : State := { m with emitter := (m.emitter.setArray a []).forget type }
        if m.emitter.eventsCount = 0 then m else m.notifyRemoved type listener
      else
        notifyRemoved type listener
          { m with emitter := m.emitter.setArray a (spliceOne list position) }

/-- `this.removeListener(type, listeners[listeners.length - 1])` -/
def removeLast (type : EventName) (a : Nat) (m : State) : State :=
  match (m.emitter.array a).getLast? with
  | none => m
  | some listener => m.removeListener type listener

def removeAllListeners (type : Option EventName) (m : State) : State :=
  if (m.emitter.events.get .removeListener).isSome then
    match type with
    | none => m.push (.removingAll (objectKeys m.emitter.events.keys))
    | some type =>
      match m.emitter.events.get type with
      | none => m
      | some (.fn listeners) => m.removeListener type listeners
      | some (.array a) => removeLast type a (m.push (.removingEach type a))
  else
    match type with
    | none => { m with emitter := m.emitter.clear }
    | some type =>
      if (m.emitter.events.get type).isSome then { m with emitter := m.emitter.forget type }
      else m

def listeners (type : EventName) (m : State) : List Fn :=
  match m.emitter.events.get type with
  | none => []
  | some (.fn listener) => [listener]
  | some (.array a) => arrayClone (m.emitter.array a) (m.emitter.array a).length

/-- `EventEmitter.listenerCount` -/
def listenerCount (type : EventName) (m : State) : Nat :=
  match m.emitter.events.get type with
  | none => 0
  | some (.fn _) => 1
  | some (.array a) => (m.emitter.array a).length

/-- A listener is called; if it is a `g`, it removes itself. -/
def call (listener : Fn) (args : List Arg) (m : State) : State :=
  match listener with
  | .user id => m.push (.running id args)
  | .g id =>
    match m.closures[id]? with
    | none => m
    | some (type, _) => removeListener type (.g id) (m.push (.firing id args))

/-- `if (!fired) { fired = true; listener.apply(this, arguments); }` -/
def apply (id : Nat) (args : List Arg) (m : State) : State :=
  if id ∈ m.fired then m
  else
    match m.listenerOf (.g id) with
    | none => m
    | some listener =>
      let m : State := { m with fired := id :: m.fired }
      call listener args (m.log (.applied id))

/-- What comes next where the program does not run -/
def advance (m : State) : State :=
  match m.stack with
  | .emitting n type args listeners i :: rest =>
    match listeners[i]? with
    | some listener =>
      let m : State := { m with stack := .emitting n type args listeners (i + 1) :: rest }
      call listener args (m.log (.called n listener))
    | none => { m with stack := rest }.log (.returned n)
  | .firing id args :: rest => apply id args { m with stack := rest }
  | .adding type listener :: rest => append type listener { m with stack := rest }
  | .removingAll (key :: keys) :: rest =>
    let m : State := { m with stack := .removingAll keys :: rest }
    if key = .removeListener then m else m.removeAllListeners (some key)
  | .removingAll [] :: rest =>
    removeAllListeners (some .removeListener) { m with stack := .clearing :: rest }
  | .clearing :: rest => { m with stack := rest, emitter := m.emitter.clear }
  | .removingEach type a :: rest =>
    if m.emitter.array a = [] then { m with stack := rest } else m.removeLast type a
  | .running .. :: _ | [] => m

def step (m : State) (action : Action) : Option State :=
  if m.able action then
    match action with
    | .on type listener => some (m.addListener type listener)
    | .once type listener => some (m.once type listener)
    | .removeListener type listener => some (m.removeListener type listener)
    | .removeAllListeners type => some (m.removeAllListeners type)
    | .emit type args => some (m.emit type args)
    | .returns => some { m with stack := m.stack.tail }
    | .throws => some { m with stack := Machine.unwind m.stack.tail }
    | .advance => some m.advance
  else none

end State

end IoJs.Events
