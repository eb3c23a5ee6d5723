import IoJs.Library.Runs
import Mathlib.Data.List.Count

/-!
# `pipe()` and `unpipe()`

What `Readable.prototype.pipe` and `unpipe` keep: `state.pipes` and `pipesCount`, the
listeners that each call of `pipe()` adds to the source and to its destination, and
`awaitDrain`. One call of `pipe()` makes one `Subscription`; its closures `ondata`,
`ondrain` and `onunpipe` are removed together by `cleanup`.
-/

namespace IoJs.Stream.Pipe

variable {Dest : Type}

/-- `state.pipes` -/
inductive Pipes (Dest : Type) where
  | null
  | one (dest : Dest)
  | many (dests : List Dest)
  deriving DecidableEq

/-- The closures of one call of `pipe()`. -/
structure Subscription (Dest : Type) where
  id : Nat
  dest : Dest
  deriving DecidableEq

/-- What `dest.write(chunk)` returns. -/
inductive Answer where
  /-- true -/
  | more
  /-- false, and `needDrain` is set -/
  | full
  /-- false: a write after `end()`, or of an invalid chunk -/
  | refused
  deriving DecidableEq

/-- A call in progress. -/
inductive Frame (Dest : Type) where
  /-- `emit('data')` on the source, with the listeners `ondata` that are not called yet -/
  | data (listeners : List (Subscription Dest))
  /-- `emit('unpipe')` on a destination, with the listeners `onunpipe` that are not called yet -/
  | unpipe (listeners : List (Subscription Dest))
  /-- the loop of `unpipe()` without argument -/
  | unpipeAll (dests : List Dest)
  deriving DecidableEq

/-- What happens between the source and its destinations. -/
inductive Event (Dest : Type) where
  | piped (dest : Dest)
  /-- `unpipe(dest)` or `unpipe()` is called -/
  | unpiped (dest : Option Dest)
  /-- `ondata` has written to a destination -/
  | wrote (dest : Dest) (ret : Answer)
  /-- someone else has -/
  | wroteElse (dest : Dest) (ret : Answer)
  | drained (dest : Dest)
  /-- `ondrain` calls `flow` -/
  | flow
  deriving DecidableEq

/-- A source and its pipes. -/
structure Config (Dest : Type) where
  pipes : Pipes Dest
  pipesCount : Nat
  awaitDrain : Nat
  flowing : Option Bool
  /-- the listeners `ondata` on the source -/
  dataListeners : List (Subscription Dest)
  /-- how many other listeners of `'data'` there are -/
  otherData : Nat
  /-- the listeners `onunpipe` on the destinations -/
  unpipeListeners : List (Subscription Dest)
  /-- the listeners `ondrain` on the destinations -/
  drainListeners : List (Subscription Dest)
  nextId : Nat
  stack : List (Frame Dest)
  trace : List (Event Dest)

/-- A source that is not piped. -/
def Config.new : Config Dest where
  pipes := .null
  pipesCount := 0
  awaitDrain := 0
  flowing := none
  dataListeners := []
  otherData := 0
  unpipeListeners := []
  drainListeners := []
  nextId := 0
  stack := []
  trace := []

/-- `Readable.prototype.resume`, as far as `flowing` goes -/
def resume (c : Config Dest) : Config Dest :=
  if c.flowing.getD false then c else { c with flowing := some true }

/-- `Readable.prototype.pause` -/
def pause (c : Config Dest) : Config Dest := { c with flowing := some false }

/-- `src.on('data')` -/
def onData (c : Config Dest) : Config Dest := if c.flowing = some false then c else resume c

/-- The closure that `pipeOnDrain` returns. -/
def ondrain (c : Config Dest) : Config Dest :=
  let c := { c with awaitDrain := c.awaitDrain - 1 }
  if c.awaitDrain = 0 ∧ c.dataListeners.length + c.otherData ≠ 0 then
    { c with flowing := some true, trace := c.trace ++ [.flow] }
  else c

/-- `state.pipes` with one more destination. -/
def Pipes.add (pipes : Pipes Dest) (pipesCount : Nat) (dest : Dest) : Pipes Dest :=
  match pipesCount, pipes with
  | 0, _ => .one dest
  | 1, .one first => .many [first, dest]
  | _, .many dests => .many (dests ++ [dest])
  | _, pipes => pipes

/-- `state.pipes` after the `splice`: the only destination itself, else the array. -/
def Pipes.shrink (dests : List Dest) (pipesCount : Nat) : Pipes Dest :=
  match pipesCount, dests with
  | 1, first :: _ => .one first
  | _, dests => .many dests

/-- `Readable.prototype.pipe` -/
def pipe (c : Config Dest) (dest : Dest) : Config Dest :=
  let subscription : Subscription Dest := ⟨c.nextId, dest⟩
  let c := { c with
    pipes := c.pipes.add c.pipesCount dest
    pipesCount := c.pipesCount + 1
    unpipeListeners := c.unpipeListeners ++ [subscription]
    drainListeners := c.drainListeners ++ [subscription]
    dataListeners := c.dataListeners ++ [subscription]
    nextId := c.nextId + 1
    trace := c.trace ++ [.piped dest] }
  resume (onData c)

section Destinations

variable [DecidableEq Dest]

/-- `dest._writableState.needDrain`, after a history -/
def needDrain (trace : List (Event Dest)) (dest : Dest) : Bool :=
  trace.foldl (fun needed event =>
    match event with
    | .wrote d ret | .wroteElse d ret => if d = dest ∧ ret = .full then true else needed
    | .drained d => if d = dest then false else needed
    | _ => needed) false

/-- The closure `cleanup` -/
def cleanup (c : Config Dest) (subscription : Subscription Dest) : Config Dest :=
  let c := { c with
    drainListeners := c.drainListeners.erase subscription
    unpipeListeners := c.unpipeListeners.erase subscription
    dataListeners := c.dataListeners.erase subscription }
  if c.awaitDrain ≠ 0 ∧ needDrain c.trace subscription.dest = true then ondrain c else c

/-- `dest.emit('unpipe', src)` -/
def emitUnpipe (c : Config Dest) (dest : Dest) : Config Dest :=
  { c with stack := .unpipe (c.unpipeListeners.filter (·.dest = dest)) :: c.stack }

/-- `Readable.prototype.unpipe` up to the listeners of `'unpipe'` -/
def unpipe (c : Config Dest) (dest : Option Dest) : Config Dest :=
  let c := { c with trace := c.trace ++ [Event.unpiped dest] }
  match c.pipesCount, c.pipes with
  | 0, _ => c
  | 1, .one only =>
    if dest.any (· ≠ only) then c
    else
      emitUnpipe { c with pipes := .null, pipesCount := 0, flowing := some false }
        (dest.getD only)
  | count, .many dests =>
    match dest with
    | none =>
      { c with
        pipes := .null
        pipesCount := 0
        flowing := some false
        stack := .unpipeAll (dests.take count) :: c.stack }
    | some dest =>
      if dest ∈ dests then
        emitUnpipe
          { c with
            pipes := Pipes.shrink (dests.erase dest) (count - 1)
            pipesCount := count - 1 } dest
      else c
  | _, _ => c

/-! ## The machine -/

/-- What can happen next. -/
inductive Action (Dest : Type) where
  | pipe (dest : Dest)
  | unpipe (dest : Option Dest)
  /-- the source emits `'data'` -/
  | emitData
  /-- the running `ondata` has its answer from `write()` -/
  | ondata (ret : Answer)
  /-- the code of the source goes on -/
  | next
  | drain (dest : Dest)
  | writeElse (dest : Dest) (ret : Answer)
  | pause
  | resume
  /-- a listener of `'data'` is added by someone else -/
  | onData

/-- `ondata` after `dest.write(chunk)` -/
def ondata (c : Config Dest) (subscription : Subscription Dest) (ret : Answer) : Config Dest :=
  let c := { c with trace := c.trace ++ [.wrote subscription.dest ret] }
  if ret = .more then c else pause { c with awaitDrain := c.awaitDrain + 1 }

/-- `dest.emit('drain')` -/
def emitDrain (c : Config Dest) (dest : Dest) : Config Dest :=
  (c.drainListeners.filter (·.dest = dest)).foldl (fun c _ => ondrain c)
    { c with trace := c.trace ++ [.drained dest] }

/-- One step; `none` where the action is not possible. A Writable emits `'drain'` only if
it needs to. -/
def step (c : Config Dest) : Action Dest → Option (Config Dest)
  | .pipe dest => some (pipe c dest)
  | .unpipe dest => some (unpipe c dest)
  | .emitData => some { c with stack := .data c.dataListeners :: c.stack }
  | .ondata ret =>
    match c.stack with
    | .data (first :: listeners) :: stack =>
      some (ondata { c with stack := .data listeners :: stack } first ret)
    | _ => none
  | .next =>
    match c.stack with
    | .data [] :: stack => some { c with stack }
    | .unpipe [] :: stack => some { c with stack }
    | .unpipe (first :: listeners) :: stack =>
      some (cleanup { c with stack := .unpipe listeners :: stack } first)
    | .unpipeAll [] :: stack => some { c with stack }
    | .unpipeAll (dest :: dests) :: stack =>
      some (emitUnpipe { c with stack := .unpipeAll dests :: stack } dest)
    | _ => none
  | .drain dest => if needDrain c.trace dest then some (emitDrain c dest) else none
  | .writeElse dest ret => some { c with trace := c.trace ++ [.wroteElse dest ret] }
  | .pause => some (pause c)
  | .resume => some (resume c)
  | .onData => some (onData { c with otherData := c.otherData + 1 })

end Destinations

end IoJs.Stream.Pipe
