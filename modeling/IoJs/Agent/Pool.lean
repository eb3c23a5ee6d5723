import IoJs.Http.Sending
import IoJs.Library.Runs

/-!
# The pool of an agent

`_http_agent.js` and the part of `_http_client.js` that it works with: an `Agent` keeps, for each
key, the sockets in use, those that are free, and the requests that wait for one. A socket is given
to a request by `onSocket`, which does the work one tick later. When the response has ended, the
socket becomes free, again one tick later.
-/

namespace IoJs.Agent

open IoJs.Stream IoJs.RegExp IoJs.Http

/-! ## Options -/

/-- The options that make a key; the empty text is an option that is not given. -/
structure Options where
  host : JSString
  port : JSString
  localAddress : JSString

def getName (options : Options) : JSString :=
  (if options.host ≠ [] then options.host else js "localhost") ++ js ":" ++ options.port ++
    js ":" ++ options.localAddress ++ js ":"

/-- The options of an agent: no limit is `Infinity`. -/
structure Config where
  maxSockets : Option Nat
  maxFreeSockets : Nat
  keepAlive : Bool
  host : Option JSString
  port : Option JSString
  localAddress : Option JSString

namespace Config

/-- `util._extend(options, self.options)` -/
def extend (config : Config) (options : Options) : Options :=
  { host := config.host.getD options.host
    port := config.port.getD options.port
    localAddress := config.localAddress.getD options.localAddress }

theorem extend_extend (config : Config) (options : Options) :
    config.extend (config.extend options) = config.extend options := by
  simp only [extend]
  cases config.host <;> cases config.port <;> cases config.localAddress <;> rfl

/-- `count < self.maxSockets` -/
def below (config : Config) (count : Nat) : Bool :=
  match config.maxSockets with
  | some max => count < max
  | none => true

end Config

/-! ## Sockets and requests -/

/-- A socket of the agent -/
structure Socket where
  /-- of `createSocket`, for its listeners -/
  options : Options
  destroyed : Bool
  writable : Bool
  /-- 'close' has been emitted -/
  closed : Bool
  /-- the agent listens to 'free', 'close' and 'agentRemove' -/
  listening : Bool
  /-- `socketCloseListener` listens to 'close' -/
  watched : Bool
  httpMessage : Option Nat
  /-- history: the requests that got it, and what they wrote to it -/
  attached : List Nat
  wire : List Piece

/-- What `createConnection` returns -/
def Socket.new (options : Options) : Socket :=
  { options
    destroyed := false
    writable := true
    closed := false
    listening := true
    watched := false
    httpMessage := none
    attached := []
    wire := [] }

/-- A `ClientRequest`, and its response -/
structure Request where
  /-- `method + ' ' + path + ' HTTP/1.1\r\n'` -/
  firstLine : JSString
  message : OutgoingMessage
  aborted : Bool
  socket : Option Nat
  /-- `res` is there -/
  responded : Bool
  /-- the response has emitted 'end' -/
  ended : Bool
  /-- history: what it wrote to its socket -/
  passed : List Piece
  /-- history: the message as it were without any socket -/
  own : OutgoingMessage

def Request.new (firstLine : JSString) (message : OutgoingMessage) : Request :=
  { firstLine
    message
    aborted := false
    socket := none
    responded := false
    ended := false
    passed := []
    own := message }

/-- What `process.nextTick` has been given -/
inductive Tick where
  | onSocket (request socket : Nat)
  | free (socket : Nat)

/-- The socket that a tick is about -/
def Tick.socket : Tick → Nat
  | .onSocket _ s => s
  | .free s => s

/-- A call of `onSocket`, and how things stood -/
structure Given where
  request : Nat
  socket : Nat
  destroyed : Bool
  /-- the requests that the socket had been given to, and that were not over -/
  unfinished : List Nat
  /-- the requests that had got the socket, and had not passed everything on -/
  incomplete : List Nat
  /-- the key of the queue that the request had waited in -/
  queue : Option JSString

/-- An agent with its sockets and requests -/
structure State where
  sockets : JSString → List Nat
  freeSockets : JSString → List Nat
  requests : JSString → List Nat
  socket : Nat → Socket
  request : Nat → Request
  nextSocket : Nat
  nextRequest : Nat
  ticks : List Tick
  given : List Given
  /-- history: the requests that had to wait -/
  queued : JSString → List Nat

namespace State

open Function (update)

/-- A new agent -/
def new : State :=
  { sockets := fun _ => []
    freeSockets := fun _ => []
    requests := fun _ => []
    socket := fun _ => .new ⟨[], [], []⟩
    request := fun _ => .new [] .new
    nextSocket := 0
    nextRequest := 0
    ticks := []
    given := []
    queued := fun _ => [] }

/-- The key of a socket -/
def nameOf (a : State) (s : Nat) : JSString := getName (a.socket s).options

/-- The sockets of a key -/
def count (a : State) (name : JSString) : Nat :=
  (a.freeSockets name).length + (a.sockets name).length

/-- A request is over for its socket: its response has ended, or it was aborted. -/
def isOver (a : State) (r : Nat) : Bool := (a.request r).ended || (a.request r).aborted

/-- A request has passed on all that it is: the message is finished, and what went to the socket is
what the message is without one. -/
def isWhole (a : State) (r : Nat) : Bool :=
  (a.request r).message.finished && (a.request r).passed == (a.request r).own.output

def onSocket (r s : Nat) (queue : Option JSString) (a : State) : State :=
  { a with
    ticks := a.ticks ++ [.onSocket r s]
    given := a.given ++
      [{ request := r
         socket := s
         destroyed := (a.socket s).destroyed
         unfinished := ((a.given.filter (·.socket = s)).map (·.request)).filter (!a.isOver ·)
         incomplete := (a.socket s).attached.filter (!a.isWhole ·)
         queue }] }

/-- `socket.destroy()` -/
def destroy (s : Nat) (a : State) : State :=
  { a with
    socket := update a.socket s { a.socket s with destroyed := true, writable := false } }

/-! ## `_http_agent.js` -/

section

variable (config : Config)

/-- `createSocket`; what it makes of the name of the server is not modelled. -/
def createSocket (options : Options) (a : State) : State :=
  let options := config.extend options
  let name := getName options
  { a with
    socket := update a.socket a.nextSocket (.new options)
    nextSocket := a.nextSocket + 1
    sockets := update a.sockets name (a.sockets name ++ [a.nextSocket]) }

/-- The loop of `removeSocket`: a destroyed socket is removed from the free ones, too. -/
def unlist (s : Nat) (a : State) : State :=
  let name := a.nameOf s
  { a with
    sockets := update a.sockets name ((a.sockets name).erase s)
    freeSockets :=
      if (a.socket s).destroyed then update a.freeSockets name ((a.freeSockets name).erase s)
      else a.freeSockets }

/-- `removeSocket`. If there are pending requests, it makes a new socket, which emits 'free'. -/
def removeSocket (onFree : Nat → State → State) (s : Nat) (a : State) : State :=
  let a := a.unlist s
  if a.requests (a.nameOf s) = [] then a
  else onFree a.nextSocket (a.createSocket config (a.socket s).options)

/-- `self.requests[name].shift().onSocket(socket)` -/
def shift (s : Nat) (a : State) : State :=
  let name := a.nameOf s
  match a.requests name with
  | [] => a
  | r :: rest => { a with requests := update a.requests name rest }.onSocket r s (some name)

/-- `req && req.shouldKeepAlive && !socket.destroyed && self.options.keepAlive` -/
def keepable (s : Nat) (a : State) : Bool :=
  ((a.socket s).httpMessage.any fun r => (a.request r).message.shouldKeepAlive) &&
    !(a.socket s).destroyed && config.keepAlive

/-- The socket is put into the pool; `removeSocket` is called before. -/
def pool (s : Nat) (a : State) : State :=
  { a with
    freeSockets := update a.freeSockets (a.nameOf s) (a.freeSockets (a.nameOf s) ++ [s]) }

/-- `socket._httpMessage = null` -/
def forget (s : Nat) (a : State) : State :=
  { a with socket := update a.socket s { a.socket s with httpMessage := none } }

/-- The listener to 'free'. That of the new socket of `removeSocket` is one level deeper. -/
def free : Nat → Nat → State → State
  | 0, _, a => a
  | depth + 1, s, a =>
    if (a.socket s).destroyed = false ∧ a.requests (a.nameOf s) ≠ [] then a.shift s
    else if a.keepable config s then
      if config.below (a.count (a.nameOf s)) = false ∨
          config.maxFreeSockets ≤ (a.freeSockets (a.nameOf s)).length then
        (a.removeSocket config (free depth) s).destroy s
      else ((a.forget s).removeSocket config (free depth) s).pool s
    else (a.removeSocket config (free depth) s).destroy s

/-- `socket.emit('free')`; a socket that left the agent has no listener. -/
def emitFree (s : Nat) (a : State) : State :=
  if (a.socket s).listening then a.free config 2 s else a

def addRequest (r : Nat) (options : Options) (a : State) : State :=
  let name := getName options
  match a.freeSockets name with
  | s :: rest =>
    let a := { a with freeSockets := update a.freeSockets name rest }.onSocket r s none
    { a with sockets := update a.sockets name (a.sockets name ++ [s]) }
  | [] =>
    if config.below (a.count name) then
      (a.createSocket config options).onSocket r a.nextSocket none
    else
      { a with
        requests := update a.requests name (a.requests name ++ [r])
        queued := update a.queued name (a.queued name ++ [r]) }

end

/-! ## `_http_client.js` -/

/-- What a request sees of its connection -/
def link (a : State) (r : Nat) : Option Link :=
  (a.request r).socket.map fun s =>
    { own := (a.socket s).httpMessage = some r
      writable := (a.socket s).writable
      destroyed := (a.socket s).destroyed }

/-- `ClientRequest.prototype._implicitHeader` -/
def implicitHeader (env : Environment) (link : Option Link) (firstLine : JSString)
    (m : OutgoingMessage) : OutgoingMessage × List Piece :=
  match m.renderHeaders with
  | some headers => m.storeHeaders env link firstLine headers
  | none => (m, [])

/-- The message of a request after a call, and what the call has written. `own` is the message
after the same call without a socket. -/
def pass (r : Nat) (result : OutgoingMessage × List Piece) (own : OutgoingMessage)
    (a : State) : State :=
  { a with
    request := update a.request r
      { a.request r with
        message := result.1
        passed := (a.request r).passed ++ result.2
        own }
    socket :=
      match (a.request r).socket with
      | some s => update a.socket s { a.socket s with wire := (a.socket s).wire ++ result.2 }
      | none => a.socket }

/-- `tickOnSocket`; the listener to 'socket' flushes what the request has in its `output`. -/
def attach (r s : Nat) (a : State) : State :=
  let a : State :=
    { a with
      request := update a.request r { a.request r with socket := some s }
      socket := update a.socket s
        { a.socket s with
          httpMessage := some r
          watched := true
          attached := (a.socket s).attached ++ [r] } }
  if (a.socket s).writable then a.pass r (a.request r).message.flush (a.request r).own else a

/-- What may happen -/
inductive Action where
  /-- `new ClientRequest(options)`; the message has its headers. -/
  | request (options : Options) (firstLine : JSString) (message : OutgoingMessage)
  /-- the next function of `process.nextTick` -/
  | tick
  /-- a response comes, and the server keeps the connection or not -/
  | response (socket : Nat) (keepAlive : Bool)
  | responseEnd (request : Nat)
  | abort (request : Nat)
  | destroy (socket : Nat)
  | close (socket : Nat)
  | agentRemove (socket : Nat)
  | write (request : Nat) (chunk : Data) (encoding : Option JSString)
  | end_ (request : Nat) (data : Option Data) (encoding : Option JSString)

/-- A plain request -/
def Action.get : Action := .request ⟨js "a", js "80", []⟩ (js "GET / HTTP/1.1\r\n") .new

section

variable (config : Config) (env : Environment)

/-- One more request -/
def enter (request : Request) (a : State) : State :=
  { a with
    request := update a.request a.nextRequest request
    nextRequest := a.nextRequest + 1 }

/-- The constructor of a request: it defaults to keep-alive, if the agent reuses connections. -/
def newRequest (options : Options) (firstLine : JSString) (message : OutgoingMessage)
    (a : State) : State :=
  let keepAlive := config.keepAlive || config.maxSockets.isSome
  let message := { message with last := !keepAlive, shouldKeepAlive := keepAlive }
  (a.enter (.new firstLine message)).addRequest config a.nextRequest options

def runTick (tick : Tick) (a : State) : State :=
  match tick with
  | .free s => a.emitFree config s
  | .onSocket r s =>
    -- if it was aborted while waiting for a socket, skip the whole thing
    if (a.request r).aborted then a.emitFree config s else a.attach r s

/-- `parserOnIncomingClient`, of a final response -/
def onIncoming (s r : Nat) (keepAlive : Bool) (a : State) : State :=
  -- the server sent a double response
  if (a.request r).responded then a.destroy s
  else
    { a with
      request := update a.request r
        { a.request r with
          responded := true
          message :=
            { (a.request r).message with
              shouldKeepAlive := (a.request r).message.shouldKeepAlive && keepAlive }
          own :=
            { (a.request r).own with
              shouldKeepAlive := (a.request r).own.shouldKeepAlive && keepAlive } } }

/-- `responseOnEnd`; `destroySoon` ends the socket. -/
def responseOnEnd (r s : Nat) (a : State) : State :=
  let keepAlive := (a.request r).message.shouldKeepAlive
  let a := { a with request := update a.request r { a.request r with ended := true } }
  if keepAlive then
    { a with
      socket := update a.socket s { a.socket s with watched := false }
      ticks := a.ticks ++ [.free s] }
  else { a with socket := update a.socket s { a.socket s with writable := false } }

/-- `socketCloseListener`: what is in `output` does not get written. -/
def closeListener (s : Nat) (a : State) : State :=
  match (a.socket s).httpMessage with
  | some r =>
    if (a.socket s).watched then
      { a with
        request := update a.request r
          { a.request r with message := { (a.request r).message with output := [] } } }
    else a
  | none => a

/-- What an action does, where it is possible -/
def step (a : State) : Action → Option State
  | .request options firstLine message => some (a.newRequest config options firstLine message)
  | .tick =>
    match a.ticks with
    | [] => none
    | tick :: rest => some ({ a with ticks := rest }.runTick config tick)
  | .response s keepAlive => (a.socket s).httpMessage.map fun r => a.onIncoming s r keepAlive
  | .responseEnd r =>
    if (a.request r).responded ∧ (a.request r).ended = false then
      (a.request r).socket.map fun s => a.responseOnEnd r s
    else none
  | .abort r =>
    if r < a.nextRequest then
      let a := { a with request := update a.request r { a.request r with aborted := true } }
      some (match (a.request r).socket with
        | some s => a.destroy s
        | none => a)
    else none
  | .destroy s => if s < a.nextSocket then some (a.destroy s) else none
  | .close s =>
    if s < a.nextSocket ∧ (a.socket s).destroyed ∧ (a.socket s).closed = false then
      let a : State := { a with socket := update a.socket s { a.socket s with closed := true } }
      let a := if (a.socket s).listening then a.removeSocket config (free config 1) s else a
      some (a.closeListener s)
    else none
  | .agentRemove s =>
    if (a.socket s).listening ∧ (a.socket s).httpMessage.isSome then
      let a := a.removeSocket config (free config 1) s
      some { a with
        socket := update a.socket s { a.socket s with listening := false, watched := false } }
    else none
  | .write r chunk encoding =>
    if r < a.nextRequest then
      let firstLine := (a.request r).firstLine
      some (a.pass r
        ((a.request r).message.write (a.link r) (implicitHeader env (a.link r) firstLine) chunk
          encoding)
        ((a.request r).own.write none (implicitHeader env none firstLine) chunk encoding).1)
    else none
  | .end_ r data encoding =>
    if r < a.nextRequest then
      let firstLine := (a.request r).firstLine
      some (a.pass r
        ((a.request r).message.end_ (a.link r) (implicitHeader env (a.link r) firstLine) data
          encoding)
        ((a.request r).own.end_ none (implicitHeader env none firstLine) data encoding).1)
    else none

end

end State

end IoJs.Agent
