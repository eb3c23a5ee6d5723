import IoJs.Library.Properties
import IoJs.Timers.LinkList
import Mathlib.Algebra.Order.Ring.Rat

/-!
# Timers at work

Timers of one duration share a list and a `Timer` of libuv, which `lists` finds by the duration;
timers that do not keep the loop alive are in `unrefList`, by the time at which they expire, and
share `unrefTimer`. Either `Timer` is a loop over its list when it fires, in which callbacks of the
program run; a callback may call the functions of this module, and it may throw, and then the loop
goes on in a later tick.
-/

namespace IoJs.Timers

open Function (update_of_ne update_self)
open IoJs.Library

def timeoutMax : ℚ := 2147483647

inductive OnTimeout where
  | callback
  /-- what `setInterval` has made -/
  | wrapper (repeat_ : ℚ)

/-- A `Timeout`, or another object with a timeout -/
structure Item where
  /-- `instanceof Timeout` -/
  isTimeout : Bool
  idleStart : ℚ
  /-- `-1` also if it has not been set -/
  idleTimeout : ℚ
  onTimeout : Option OnTimeout
  /-- `_repeat` is a function. -/
  repeat_ : Bool

/-- A `Timer` of a list -/
structure Timer where
  msecs : ℚ
  isOpen : Bool
  /-- It has been started, and has not fired. -/
  isArmed : Bool

structure UnrefTimer where
  isArmed : Bool
  when_ : ℚ

/-- What is under way; `now` is what a loop has read when it began. -/
inductive Phase where
  /-- nothing: the program runs, or nobody -/
  | idle
  /-- the loop of `listOnTimeout` -/
  | listLoop (list : Nat) (now : ℚ)
  /-- a callback in it; `repeat_`, if it is called by an interval -/
  | listCallback (list : Nat) (now : ℚ) (first : Nat) (repeat_ : Option ℚ)
  /-- the loop of `unrefTimeout` -/
  | unrefLoop (now : ℚ)
  | unrefCallback (now : ℚ) (first : Nat) (repeat_ : Option ℚ)
  deriving DecidableEq

/-- What happens to an item -/
inductive Event where
  | armed (item list : Nat) (start msecs : ℚ)
  /-- It is unenrolled; `dropped`, if its callback has been dropped before. -/
  | cleared (item : Nat) (dropped : Bool)
  /-- It is removed from its list because its time has come, and its callback may be called. -/
  | expired (list item : Nat) (time : ℚ) (called : Bool)
  deriving DecidableEq

/-- What the program, libuv and the queue of ticks do, and the next step of a loop -/
inductive Action where
  /-- the clock -/
  | tick (now : ℚ)
  /-- another object of the program -/
  | create (idleTimeout : ℚ) (callable : Bool)
  | setTimeout (after : Option ℚ) (callable : Bool)
  | setInterval (repeat_ : Option ℚ)
  | clearTimeout (timer : Nat)
  | clearInterval (timer : Nat)
  | enroll (item : Nat) (msecs : ℚ)
  | active (item : Nat)
  | unenroll (item : Nat)
  | unrefActive (item : Nat)
  /-- a callback returns -/
  | returns
  | throws
  | advance
  /-- a `Timer` fires -/
  | fire (list : Nat)
  | fireUnref
  /-- `list[kOnTimeout]()` in a later tick -/
  | retry (list : Nat)
  | retryUnref
  deriving DecidableEq

structure State where
  /-- `Timer.now()` -/
  now : ℚ
  items : Nat → Item
  itemCount : Nat
  links : Links
  lists : Properties ℚ Nat
  timers : Nat → Timer
  timerCount : Nat
  unrefTimer : Option UnrefTimer
  phase : Phase
  /-- the lists whose loops go on in a later tick -/
  retries : List Nat
  unrefRetries : Nat
  trace : List Event

namespace State

/-- No timer has been made. -/
def initial (now : ℚ) : State where
  now := now
  items := fun _ => ⟨false, 0, -1, none, false⟩
  itemCount := 0
  links := .none
  lists := .empty
  timers := fun _ => ⟨0, false, false⟩
  timerCount := 0
  unrefTimer := none
  phase := .idle
  retries := []
  unrefRetries := 0
  trace := []

/-- The lists that there are -/
def made (s : State) : Head → Prop
  | .list list => list < s.timerCount
  | .unref => s.unrefTimer.isSome = true

/-- The items of a list, from the peek end on -/
def contents (s : State) (h : Head) : List Nat := s.links.items s.itemCount (.head h)

/-- When an item of `unrefList` expires -/
def expiry (s : State) (i : Nat) : ℚ := (s.items i).idleStart + (s.items i).idleTimeout

def log (event : Event) (s : State) : State := { s with trace := s.trace ++ [event] }

def setItem (i : Nat) (item : Item) (s : State) : State :=
  { s with items := Function.update s.items i item }

def setTimer (list : Nat) (timer : Timer) (s : State) : State :=
  { s with timers := Function.update s.timers list timer }

@[simp] theorem items_setItem_self (i : Nat) (item : Item) (s : State) :
    (s.setItem i item).items i = item := update_self ..

theorem items_setItem_of_ne {i j : Nat} (other : j ≠ i) (item : Item) (s : State) :
    (s.setItem i item).items j = s.items j := update_of_ne other _ _

@[simp] theorem timers_setTimer_self (list : Nat) (timer : Timer) (s : State) :
    (s.setTimer list timer).timers list = timer := update_self ..

variable {list : Nat}

theorem timers_setTimer_of_ne {list' : Nat} (other : list' ≠ list) (timer : Timer)
    (s : State) : (s.setTimer list timer).timers list' = s.timers list' :=
  update_of_ne other _ _

variable {s : State}

theorem msecs_setTimer (timer : Timer) (same : timer.msecs = (s.timers list).msecs) (l : Nat) :
    ((s.setTimer list timer).timers l).msecs = (s.timers l).msecs := by
  by_cases eq : l = list
  · rw [eq, timers_setTimer_self, same]
  · rw [timers_setTimer_of_ne eq]

/-- `L.remove(item)` -/
def remove (i : Nat) (s : State) : State := { s with links := s.links.remove (.item i) }

/-- `L.append(list, item)` -/
def append (list : Node) (i : Nat) (s : State) : State :=
  { s with links := s.links.append list (.item i) }

/-- `list.close()` -/
def closeTimer (list : Nat) (s : State) : State :=
  s.setTimer list { s.timers list with isOpen := false }

/-- `list.start(msecs, 0)` -/
def startTimer (list : Nat) (s : State) : State :=
  s.setTimer list { s.timers list with isArmed := true }

/-- A new `Timer` with an empty list -/
def makeList (msecs : ℚ) (s : State) : State :=
  { s with
    timers := Function.update s.timers s.timerCount ⟨msecs, true, true⟩
    timerCount := s.timerCount + 1
    links := s.links.init (.head (.list s.timerCount))
    lists := s.lists.set msecs s.timerCount }

theorem timers_makeList_self (msecs : ℚ) (s : State) :
    (s.makeList msecs).timers s.timerCount = ⟨msecs, true, true⟩ := update_self ..

theorem timers_makeList_of_ne (other : list ≠ s.timerCount) (msecs : ℚ) :
    (s.makeList msecs).timers list = s.timers list := update_of_ne other _ _

def insert (i : Nat) (msecs : ℚ) (s : State) : State :=
  let s := s.setItem i { s.items i with idleStart := s.now, idleTimeout := msecs }
  if msecs < 0 then s
  else
    match s.lists.get msecs with
    | some list => (s.append (.head (.list list)) i).log (.armed i list s.now msecs)
    | none =>
      ((s.makeList msecs).append (.head (.list s.timerCount)) i).log
        (.armed i s.timerCount s.now msecs)

/-- `if (list && L.isEmpty(list)) …`, where `list` is the one of `msecs` -/
def stopEmpty (msecs : ℚ) (s : State) : State :=
  match s.lists.get msecs with
  | none => s
  | some list =>
    if s.links.isEmpty (.head (.list list)) then
      { s.closeTimer list with lists := s.lists.delete msecs }
    else s

def unenroll (i : Nat) (s : State) : State :=
  let s := (s.remove i).stopEmpty (s.items i).idleTimeout
  (s.setItem i { s.items i with idleTimeout := -1 }).log
    (.cleared i (s.items i).onTimeout.isNone)

/-- `enroll`; it throws if `msecs` is negative. -/
def enroll (i : Nat) (msecs : ℚ) (s : State) : State :=
  if msecs < 0 then s
  else
    let s := if (s.links.next (.item i)).isSome then s.unenroll i else s
    let s := s.setItem i { s.items i with idleTimeout := min msecs timeoutMax }
    { s with links := s.links.init (.item i) }

def active (i : Nat) (s : State) : State :=
  if (s.items i).idleTimeout ≥ 0 then s.insert i (s.items i).idleTimeout else s

/-- A new object -/
def makeItem (item : Item) (s : State) : State :=
  { s.setItem s.itemCount item with itemCount := s.itemCount + 1 }

/-- `new Timeout(after)`, whose callback has been set -/
def makeTimeout (after : ℚ) (onTimeout : Option OnTimeout) (repeat_ : Bool) (s : State) : State :=
  { s.makeItem ⟨true, 0, after, onTimeout, repeat_⟩ with
    links := s.links.init (.item s.itemCount) }

/-- `if (!(after >= 1 && after <= TIMEOUT_MAX)) after = 1;`, where `none` is `NaN` -/
def clamp (after : Option ℚ) : ℚ :=
  match after with
  | none => 1
  | some after => if after ≥ 1 ∧ after ≤ timeoutMax then after else 1

def setTimeout (after : Option ℚ) (callable : Bool) (s : State) : State :=
  (s.makeTimeout (clamp after) (if callable then some .callback else none) false).active
    s.itemCount

def setInterval (repeat_ : Option ℚ) (s : State) : State :=
  (s.makeTimeout (clamp repeat_) (some (.wrapper (clamp repeat_))) true).active s.itemCount

/-- `Timeout.prototype.close` -/
def close (i : Nat) (s : State) : State :=
  (s.setItem i { s.items i with onTimeout := none }).unenroll i

def clearTimeout (i : Nat) (s : State) : State :=
  if (s.items i).onTimeout.isSome then
    let s := s.setItem i { s.items i with onTimeout := none }
    if (s.items i).isTimeout then s.close i else s.unenroll i
  else s

def clearInterval (i : Nat) (s : State) : State :=
  if (s.items i).repeat_ then (s.setItem i { s.items i with repeat_ := false }).clearTimeout i
  else s

/-! ## `unrefList` -/

/-- `unrefTimer.start(…, 0); unrefTimer.when = when;` -/
def startUnref (when_ : ℚ) (s : State) : State := { s with unrefTimer := some ⟨true, when_⟩ }

/-- The loop that looks for the first item that expires after `when`, from `cur` on -/
def place (s : State) (when_ : ℚ) : Nat → Option Node → Option Nat
  | 0, _ => none
  | n + 1, cur =>
    match cur with
    | some (.item j) =>
      if when_ < s.expiry j then some j else s.place when_ n (s.links.prev (.item j))
    | _ => none

/-- `if (unrefTimer.when > when) …` -/
def advanceUnref (when_ : ℚ) (s : State) : State :=
  match s.unrefTimer with
  | none => s
  | some timer => if timer.when_ > when_ then s.startUnref when_ else s

/-- `unrefList = {}; L.init(unrefList); unrefTimer = new Timer();` -/
def initUnref (s : State) : State :=
  { s with links := s.links.init (.head .unref), unrefTimer := some ⟨false, -1⟩ }

def unrefActive (i : Nat) (s : State) : State :=
  let msecs := (s.items i).idleTimeout
  if msecs ≤ 0 then s
  else
    let s := s.remove i
    let s := if s.unrefTimer.isSome then s else s.initUnref
    let s := s.setItem i { s.items i with idleStart := s.now }
    if s.links.isEmpty (.head .unref) then
      (s.append (.head .unref) i).startUnref (s.now + msecs)
    else
      match s.place (s.now + msecs) (s.itemCount + 1) (s.links.prev (.head .unref)) with
      | some j => (s.append (.item j) i).advanceUnref (s.now + msecs)
      | none => s.append (.head .unref) i

/-! ## Loops and callbacks -/

/-- `listOnTimeout`, at the head of its loop -/
def listOnTimeout (list : Nat) (now : ℚ) (s : State) : State :=
  match s.links.peek (.head (.list list)) with
  | some (.item first) =>
    if now - (s.items first).idleStart < (s.timers list).msecs then
      { s.startTimer list with phase := .idle }
    else
      match (s.items first).onTimeout with
      | none => (s.remove first).log (.expired list first s.now false)
      | some .callback =>
        { (s.remove first).log (.expired list first s.now true) with
          phase := .listCallback list now first none }
      | some (.wrapper repeat_) =>
        { (s.remove first).log (.expired list first s.now true) with
          phase := .listCallback list now first (some repeat_) }
  | _ =>
    { s.closeTimer list with
      lists := s.lists.delete (s.timers list).msecs
      phase := .idle }

/-- `unrefTimeout`, at the head of its loop -/
def unrefTimeout (now : ℚ) (s : State) : State :=
  match s.links.peek (.head .unref) with
  | some (.item first) =>
    let diff := now - (s.items first).idleStart
    if diff < (s.items first).idleTimeout then
      { s.startUnref (now + ((s.items first).idleTimeout - diff)) with phase := .idle }
    else
      match (s.items first).onTimeout with
      | none => s.remove first
      | some .callback => { s.remove first with phase := .unrefCallback now first none }
      | some (.wrapper repeat_) =>
        { s.remove first with phase := .unrefCallback now first (some repeat_) }
  | _ =>
    { s with
      unrefTimer := s.unrefTimer.map fun timer => { timer with when_ := -1 }
      phase := .idle }

/-- What `wrapper` does when the callback of the interval has returned -/
def rearm (i : Nat) (repeat_ : Option ℚ) (s : State) : State :=
  match repeat_ with
  | none => s
  | some repeat_ =>
    if (s.items i).repeat_ then
      (s.setItem i { s.items i with idleTimeout := repeat_ }).active i
    else s

/-- The program runs. -/
def user (s : State) : Bool :=
  match s.phase with
  | .idle | .listCallback .. | .unrefCallback .. => true
  | _ => false

def step (s : State) (action : Action) : Option State :=
  match action, s.phase with
  | .tick now, _ => if 0 ≤ now then some { s with now := now } else none
  | .create idleTimeout callable, _ =>
    if s.user then
      some (s.makeItem ⟨false, 0, idleTimeout, if callable then some .callback else none, false⟩)
    else none
  | .setTimeout after callable, _ => if s.user then some (s.setTimeout after callable) else none
  | .setInterval repeat_, _ => if s.user then some (s.setInterval repeat_) else none
  | .clearTimeout i, _ => if s.user ∧ i < s.itemCount then some (s.clearTimeout i) else none
  | .clearInterval i, _ => if s.user ∧ i < s.itemCount then some (s.clearInterval i) else none
  | .enroll i msecs, _ => if s.user ∧ i < s.itemCount then some (s.enroll i msecs) else none
  | .active i, _ => if s.user ∧ i < s.itemCount then some (s.active i) else none
  | .unenroll i, _ => if s.user ∧ i < s.itemCount then some (s.unenroll i) else none
  | .unrefActive i, _ => if s.user ∧ i < s.itemCount then some (s.unrefActive i) else none
  | .returns, .listCallback list now first repeat_ =>
    some { s.rearm first repeat_ with phase := .listLoop list now }
  | .returns, .unrefCallback now first repeat_ =>
    some { s.rearm first repeat_ with phase := .unrefLoop now }
  | .throws, .listCallback list _ _ _ =>
    some { s with retries := s.retries ++ [list], phase := .idle }
  | .throws, .unrefCallback .. => some { s with unrefRetries := s.unrefRetries + 1, phase := .idle }
  | .advance, .listLoop list now => some (s.listOnTimeout list now)
  | .advance, .unrefLoop now => some (s.unrefTimeout now)
  | .fire list, .idle =>
    if list < s.timerCount ∧ (s.timers list).isOpen ∧ (s.timers list).isArmed then
      some { s.setTimer list { s.timers list with isArmed := false } with
        phase := .listLoop list s.now }
    else none
  | .fireUnref, .idle =>
    match s.unrefTimer with
    | some ⟨true, when_⟩ =>
      some { s with unrefTimer := some ⟨false, when_⟩, phase := .unrefLoop s.now }
    | _ => none
  | .retry list, .idle =>
    if list ∈ s.retries then
      some { s with retries := s.retries.erase list, phase := .listLoop list s.now }
    else none
  | .retryUnref, .idle =>
    if s.unrefRetries ≠ 0 then
      some { s with unrefRetries := s.unrefRetries - 1, phase := .unrefLoop s.now }
    else none
  | _, _ => none

end State

end IoJs.Timers
