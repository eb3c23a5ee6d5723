import IoJs.ChildProcess.Receiver
import IoJs.Library.Runs

/-!
# Two processes and their channel

After a message with a handle nothing is written but acknowledgements, until the handle is
acknowledged: what is sent in between waits in `_handleQueue`, and is then sent again. The first of
these that has a handle starts the next queue, for the rest.
-/

namespace IoJs.ChildProcess

open IoJs.Buffer IoJs.RegExp IoJs.Stream
open Function (update)

/-- The arguments of a call of `_send` -/
structure Queued where
  message : Json
  handle : Option Nat

/-- The object that `setupChannel` sets up -/
structure Target where
  receiver : Receiver Nat
  handleQueue : Option (List Queued)
  handles : Nat → Handle
  sent : List Json
  got : List Json
  wrapped : Nat
  acknowledged : Nat

/-- The type of a message, if `handleConversion` has it -/
def Kind.find (message : Json) : Option Kind :=
  match message.get (js "type") with
  | some (.string type) =>
    [Kind.socket, .server, .native, .dgramSocket, .dgramNative].find? (·.type = type)
  | _ => none

/-- What `writeUtf8String` writes -/
def JSON.bytes (json : JSON) (message : Json) : List UInt8 :=
  utf8Write (json.stringify message ++ [unit '\n'])

namespace Target

def new (handles : Nat → Handle) : Target :=
  { receiver := .new, handleQueue := none, handles, sent := [], got := [], wrapped := 0,
    acknowledged := 0 }

section Parameters

-- Of which class an object is does not change; others than these cannot be sent.
variable (json : JSON) (kind : Nat → Option Kind)

/-- `_send`: the target afterwards, and what is written -/
def _send (t : Target) (message : Json) : Option Nat → Target × List UInt8
  | some handle =>
    match kind handle with
    -- It throws.
    | none => (t, [])
    | some kind =>
      match t.handleQueue with
      | some queue =>
        ({ t with handleQueue := some (queue ++ [{ message, handle := some handle }]) }, [])
      | none =>
        let object := t.handles handle
        let handles := update t.handles handle (given kind object)
        if object.native.isSome then
          ({ t with handles, handleQueue := some [], wrapped := t.wrapped + 1 },
            json.bytes (nodeHandle kind message (additions kind object)))
        else ({ t with handles }, json.bytes message)
  | none =>
    match t.handleQueue with
    | some queue =>
      if message.cmd = some (js "NODE_HANDLE_ACK") then (t, json.bytes message)
      else ({ t with handleQueue := some (queue ++ [{ message, handle := none }]) }, [])
    | none => (t, json.bytes message)

def send (t : Target) (message : Json) (handle : Option Nat) : Target × List UInt8 :=
  let result := t._send json kind message handle
  if handle.all fun handle => (kind handle).isSome then
    ({ result.1 with sent := result.1.sent ++ [message] }, result.2)
  else result

/-- `queue.forEach` -/
def replay (t : Target) : List Queued → Target × List UInt8
  | [] => (t, [])
  | args :: queue =>
    let first := t._send json kind args.message args.handle
    let rest := replay first.1 queue
    (rest.1, first.2 ++ rest.2)

/-- `target._handleQueue = null` -/
def acknowledge (t : Target) : Target :=
  { t with handleQueue := none, acknowledged := t.acknowledged + 1 }

/-- The listener of `internalMessage`; it gives nothing if it throws. -/
def internalMessage (t : Target) (message : Json) : Option (Target × List UInt8) :=
  if message.cmd = some (js "NODE_HANDLE_ACK") then
    -- `assert(Array.isArray(target._handleQueue))`
    match t.handleQueue with
    | none => none
    | some queue => some (t.acknowledge.replay json kind queue)
  else if message.cmd ≠ some (js "NODE_HANDLE") then some (t, [])
  else
    let result := t._send json kind nodeHandleAck none
    match Kind.find message with
    | none => none
    | some _ =>
      some ({ result.1 with got := result.1.got ++ (message.get (js "msg")).toList }, result.2)

/-- `handleMessage`, for a message from the channel -/
def handleMessage (t : Target) (message : Json) : Option (Target × List UInt8) :=
  if isInternal message then t.internalMessage json kind message
  else some ({ t with got := t.got ++ [message] }, [])

end Parameters

end Target

inductive Side where
  | parent
  | child
  deriving DecidableEq

def Side.peer : Side → Side
  | .parent => .child
  | .child => .parent

structure State where
  target : Side → Target
  -- what a side has written and the other one has not read
  wire : Side → List UInt8
  -- An assertion or `JSON.parse` has thrown.
  failed : Bool

namespace State

def initial (handles : Side → Nat → Handle) : State :=
  { target := fun side => .new (handles side), wire := fun _ => [], failed := false }

inductive Action where
  | send (side : Side) (message : Json) (handle : Option Nat)
  | read (side : Side) (n : Nat) (recvHandle : Option Nat)
  | next (side : Side)
  -- Something else happens to a handle.
  | change (side : Side) (handle : Nat) (object : Handle)

/-- A target has done something and written. -/
def after (s : State) (side : Side) (result : Target × List UInt8) : State :=
  { s with
    target := update s.target side result.1
    wire := update s.wire side (s.wire side ++ result.2) }

def step (toString : ToString) (json : JSON) (kind : Side → Nat → Option Kind) (s : State) :
    Action → Option State
  | .send side message handle =>
    some (s.after side ((s.target side).send json (kind side) message handle))
  | .read side n recvHandle =>
    let t := s.target side
    let wire := s.wire side.peer
    if t.receiver.call = none ∧ 0 < n ∧ n ≤ wire.length then
      some { s with
        target := update s.target side
          { t with receiver := t.receiver.read toString (wire.take n) recvHandle }
        wire := update s.wire side.peer (wire.drop n) }
    else none
  | .next side =>
    let t := s.target side
    match t.receiver.call with
    | none => none
    | some recvHandle =>
      match t.receiver.next json recvHandle with
      | .throws => some { s with failed := true }
      | .done receiver =>
        some { s with target := update s.target side { t with receiver } }
      | .message message _ receiver =>
        let t := { t with receiver }
        match t.handleMessage json (kind side) message with
        | none => some { s with failed := true }
        | some result => some (s.after side result)
  | .change side handle object =>
    let t := s.target side
    some { s with
      target := update s.target side
        { t with handles := update t.handles handle object } }

end State

end IoJs.ChildProcess
