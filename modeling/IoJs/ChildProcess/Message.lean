import IoJs.Buffer

/-!
# Messages of a channel between processes

A message is a JSON value. On the channel it is a line: its text and a line feed. A message that is
sent with a handle is wrapped, in an object with the command `NODE_HANDLE`.

`JSON.stringify` and `JSON.parse` are parameters.
-/

namespace IoJs.ChildProcess

open IoJs.Buffer IoJs.RegExp IoJs.Stream

inductive Json where
  | null
  | bool (value : Bool)
  | number (literal : JSString)
  | string (value : JSString)
  | array (items : List Json)
  | object (members : List (JSString × Json))
  deriving Repr, Inhabited

namespace Json

/-- `message[key]`; it is `none` where that is `undefined`. -/
def get (key : JSString) : Json → Option Json
  | .object members => (members.find? (·.1 = key)).map (·.2)
  | _ => none

/-- `message.cmd`, if it is a string -/
def cmd (message : Json) : Option JSString :=
  match message.get (js "cmd") with
  | some (.string value) => some value
  | _ => none

end Json

def internalPrefix : JSString := js "NODE_"

/-- Does `handleMessage` emit `internalMessage`? -/
def isInternal (message : Json) : Bool :=
  message.cmd.any fun cmd =>
    cmd.length > internalPrefix.length && cmd.take internalPrefix.length = internalPrefix

/-- The parts of the global object `JSON` -/
structure JSON where
  stringify : Json → JSString
  parse : JSString → Option Json

namespace JSON

variable (json : JSON)

/-- The characters that `writeUtf8String` writes of a message, before the line feed -/
def text (message : Json) : List Char := scalars (json.stringify message)

/-- What is parsed at the other end -/
def arrives (message : Json) : Option Json := json.parse (utf16Encode (json.text message))

/-- A message is one line, and it is parsed. -/
structure Carries (message arriving : Json) : Prop where
  plain : '\n' ∉ json.text message
  arrives : json.arrives message = some arriving

end JSON

/-! ## Handles -/

/-- What a handle that can be sent is: an instance of one of these classes -/
inductive Kind where
  | socket
  | server
  | native
  | dgramSocket
  | dgramNative
  deriving DecidableEq

/-- `message.type` -/
def Kind.type : Kind → JSString
  | .socket => js "net.Socket"
  | .server => js "net.Server"
  | .native => js "net.Native"
  | .dgramSocket => js "dgram.Socket"
  | .dgramNative => js "dgram.Native"

/-- The object that `send` is called with -/
structure Handle where
  -- `_handle`, or the object itself where it is a native one
  native : Option Nat
  -- `server._connectionKey`, of a socket that a server has created
  connectionKey : Option JSString
  -- of a dgram socket
  type : JSString

/-- What `handleConversion[message.type].send` adds to the message -/
def additions (kind : Kind) (handle : Handle) : List (JSString × Json) :=
  match kind with
  | .socket =>
    if handle.native.isSome then
      (handle.connectionKey.map fun key => (js "key", Json.string key)).toList
    else []
  | .dgramSocket => [(js "dgramType", .string handle.type)]
  | _ => []

/-- What it does to the object: a socket gives its handle away. -/
def given (kind : Kind) (handle : Handle) : Handle :=
  if kind = .socket then { handle with native := none } else handle

/-- `{ cmd: 'NODE_HANDLE', type: …, msg: message }` -/
def nodeHandle (kind : Kind) (message : Json) (additions : List (JSString × Json)) : Json :=
  .object ((js "cmd", .string (js "NODE_HANDLE")) :: (js "type", .string kind.type) ::
    (js "msg", message) :: additions)

/-- `{ cmd: 'NODE_HANDLE_ACK' }` -/
def nodeHandleAck : Json := .object [(js "cmd", .string (js "NODE_HANDLE_ACK"))]

theorem cmd_nodeHandle (kind : Kind) (message : Json) (additions : List (JSString × Json)) :
    (nodeHandle kind message additions).cmd = some (js "NODE_HANDLE") := rfl

theorem cmd_nodeHandleAck : nodeHandleAck.cmd = some (js "NODE_HANDLE_ACK") := rfl

theorem cmd_ne_of_not_internal {message : Json} (user : isInternal message = false) :
    message.cmd ≠ some (js "NODE_HANDLE") ∧ message.cmd ≠ some (js "NODE_HANDLE_ACK") := by
  constructor
  · intro cmd
    rw [isInternal, cmd] at user
    exact absurd user (by decide)
  intro cmd
  rw [isInternal, cmd] at user
  exact absurd user (by decide)

end IoJs.ChildProcess
