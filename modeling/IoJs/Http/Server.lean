import IoJs.Http.Alone
import IoJs.Library.Runs

/-!
# A connection of a server

`connectionListener` of `_http_server.js`: the requests of a connection come one after the other,
and their handlers write to the responses whenever they like. The first response that has not ended
has the connection; the others wait in `outgoing` until it is their turn.
-/

namespace IoJs.Http.Server

open IoJs.Stream IoJs.RegExp
open Function (update)

/-- An assertion that fails, or a property that is read of `null` -/
inductive Failure where
  /-- `assert(!socket._httpMessage)` -/
  | assignSocket
  /-- `assert(socket._httpMessage === this)` -/
  | detachSocket
  /-- `assert(incoming.length === 0 || incoming[0] === req)` -/
  | resOnFinish
  /-- `assert(this.connection)` -/
  | finish
  /-- `this.connection._httpMessage`, where there is no connection -/
  | noConnection

/-- What a response depends on in its request -/
structure RequestHead where
  isHead : Bool
  /-- HTTP/1.1 or later -/
  http11 : Bool
  /-- `chunkExpression.test(req.headers.te)` -/
  te : Bool
  /-- what the parser says about keeping the connection -/
  shouldKeepAlive : Bool
  /-- `Expect: 100-continue`, in HTTP/1.1 -/
  expectsContinue : Bool

/-- A `ServerResponse` -/
structure Response where
  message : OutgoingMessage
  /-- `socket` and `connection` are the connection, and not `null` -/
  attached : Bool
  /-- history: what it has written -/
  passed : List Piece
  /-- history: the response with the connection to itself, and what it has written there -/
  own : OutgoingMessage
  said : List Piece

/-- The constructor; `shouldKeepAlive` is set behind it. -/
def Response.new (head : RequestHead) : Response :=
  let message :=
    { OutgoingMessage.serverResponse head.isHead head.shouldKeepAlive with
      useChunkedEncodingByDefault := head.http11 || head.te }
  { message, attached := false, passed := [], own := message, said := [] }

/-- A connection; a request and its response have the same number. -/
structure Connection where
  outgoing : List Nat
  incoming : List Nat
  httpMessage : Option Nat
  writable : Bool
  response : Nat → Response
  count : Nat
  failure : Option Failure
  /-- history: what has been written -/
  wire : List Piece

namespace Connection

/-- A new connection -/
def new : Connection :=
  { outgoing := []
    incoming := []
    httpMessage := none
    writable := true
    response := fun _ => .new ⟨false, false, false, false, false⟩
    count := 0
    failure := none
    wire := [] }

/-- What a response sees of its connection -/
def link (c : Connection) (r : Nat) : Option Link :=
  if (c.response r).attached then
    some { own := c.httpMessage = some r, writable := c.writable, destroyed := false }
  else none

/-- A response after a call, and what the call has written; `alone` is the same call with the
connection to itself. -/
def pass (r : Nat) (result alone : OutgoingMessage × List Piece) (c : Connection) : Connection :=
  { c with
    response := update c.response r
      { c.response r with
        message := result.1
        passed := (c.response r).passed ++ result.2
        own := alone.1
        said := (c.response r).said ++ alone.2 }
    wire := c.wire ++ result.2 }

/-- The message of a response changes, and its own one. -/
def change (r : Nat) (f : OutgoingMessage → OutgoingMessage) (c : Connection) : Connection :=
  c.pass r (f (c.response r).message, []) (f (c.response r).own, [])

section

variable (onPrefinish : Nat → Connection → Except Failure Connection)

def finish (r : Nat) (c : Connection) : Except Failure Connection :=
  if (c.response r).attached then onPrefinish r c else .error .finish

def flush (r : Nat) (c : Connection) : Except Failure Connection :=
  if (c.response r).attached ∧ c.writable then
    let c := c.pass r (c.response r).message.flush ((c.response r).own, [])
    if (c.response r).message.finished then c.finish onPrefinish r else .ok c
  else .ok c

def assignSocket (r : Nat) (c : Connection) : Except Failure Connection :=
  if c.httpMessage.isSome then .error .assignSocket
  else
    { c with
      httpMessage := some r
      response := update c.response r { c.response r with attached := true }
    }.flush onPrefinish r

end

def detachSocket (r : Nat) (c : Connection) : Except Failure Connection :=
  if c.httpMessage = some r then
    .ok { c with
      httpMessage := none
      response := update c.response r { c.response r with attached := false } }
  else .error .detachSocket

/-- `resOnFinish`, with what waits in `outgoing` -/
def resOnFinish : List Nat → Nat → Connection → Except Failure Connection
  | queue, r, c =>
    if c.incoming ≠ [] ∧ c.incoming.head? ≠ some r then .error .resOnFinish
    else
      ({ c with incoming := c.incoming.tail }.detachSocket r).bind fun c =>
        if (c.response r).message.last then
          -- `destroySoon`
          .ok { c with writable := false }
        else
          -- start sending the next message
          match queue with
          | [] => .ok c
          | m :: rest => { c with outgoing := rest }.assignSocket (resOnFinish rest) m

/-- `end`, after all has been sent -/
def ended (r : Nat) (c : Connection) : Except Failure Connection :=
  if (c.response r).message.output = [] then
    if (c.response r).attached then
      if c.httpMessage = some r then c.finish (resOnFinish c.outgoing) r else .ok c
    else .error .noConnection
  else .ok c

section

variable (env : Environment)

def writeContinue (r : Nat) (c : Connection) : Connection :=
  c.pass r ((c.response r).message.writeContinue (c.link r))
    ((c.response r).own.writeContinue (some .open_))

def write (r : Nat) (chunk : Data) (encoding : Option JSString) (c : Connection) : Connection :=
  c.pass r
    ((c.response r).message.write (c.link r) (OutgoingMessage.implicitHeader env (c.link r)) chunk
      encoding)
    ((c.response r).own.write (some .open_) (OutgoingMessage.implicitHeader env (some .open_)) chunk
      encoding)

def end_ (r : Nat) (data : Option Data) (encoding : Option JSString) (c : Connection) :
    Except Failure Connection :=
  if (c.response r).message.finished then .ok c
  else
    ended r <| c.pass r
      ((c.response r).message.end_ (c.link r) (OutgoingMessage.implicitHeader env (c.link r)) data
        encoding)
      ((c.response r).own.end_ (some .open_) (OutgoingMessage.implicitHeader env (some .open_)) data
        encoding)

/-- `setHeader`; where it throws, nothing has changed. -/
def setHeader (r : Nat) (name : JSString) (value : Value) (c : Connection) : Connection :=
  c.change r fun m => (m.setHeader env name value).getD m

/-- `parserOnIncoming`, until 'request' or 'checkContinue' is emitted -/
def parserOnIncoming (checkContinue : Bool) (head : RequestHead) (c : Connection) :
    Except Failure Connection :=
  let r := c.count
  let c : Connection :=
    { c with
      incoming := c.incoming ++ [r]
      response := update c.response r (.new head)
      count := r + 1 }
  let assigned :=
    -- there are already pending outgoing responses, append
    if c.httpMessage.isSome then .ok { c with outgoing := c.outgoing ++ [r] }
    else c.assignSocket (resOnFinish c.outgoing) r
  assigned.map fun c =>
    if head.expectsContinue then
      let c := c.change r fun m => { m with expectContinue := true }
      if checkContinue then c else c.writeContinue r
    else c

/-- What may happen -/
inductive Action where
  | request (head : RequestHead)
  | setHeader (response : Nat) (name : JSString) (value : Value)
  | write (response : Nat) (chunk : Data) (encoding : Option JSString)
  | end_ (response : Nat) (data : Option Data) (encoding : Option JSString)

/-- The connection after a call that may throw -/
def settle (c : Connection) : Except Failure Connection → Connection
  | .ok c' => c'
  | .error failure => { c with failure := some failure }

/-- What an action does, where it is possible -/
def step (checkContinue : Bool) (c : Connection) : Action → Option Connection
  | .request head => some (c.settle (c.parserOnIncoming checkContinue head))
  | .setHeader r name value => if r < c.count then some (c.setHeader env r name value) else none
  | .write r chunk encoding => if r < c.count then some (c.write env r chunk encoding) else none
  | .end_ r data encoding =>
    if r < c.count then some (c.settle (c.end_ env r data encoding)) else none

end

end Connection

end IoJs.Http.Server
