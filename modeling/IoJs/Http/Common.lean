import IoJs.Http.Parser

/-!
# `_http_common`

The functions that a `Parser` calls, and the list of parsers that are free. What they come to
is the messages that are delivered, with their bodies and their trailers.
-/

namespace IoJs.Http

/-- What is set of an `IncomingMessage` when it is delivered. -/
structure Message where
  httpVersionMajor : Nat
  httpVersionMinor : Nat
  url : Bytes
  rawHeaders : List Bytes
  method : Option Nat
  statusCode : Option Nat
  statusMessage : Option Bytes
  upgrade : Bool
  shouldKeepAlive : Bool
  deriving DecidableEq

/-- What a connection delivers. -/
inductive Event where
  | message (m : Message)
  | body (chunk : Bytes)
  | complete (rawTrailers : List Bytes)
  deriving DecidableEq

/-- The fields of the JavaScript object; `incoming` tells whether there is a message. -/
structure Fields where
  headers : List Bytes
  url : Bytes
  maxHeaderPairs : Int
  incoming : Bool

/-- The lines that `_addHeaderLines` takes. -/
def addHeaderLines : List Bytes → Nat → List Bytes
  | k :: v :: headers, n => if n = 0 then [] else k :: v :: addHeaderLines headers (n - 2)
  | _, _ => []

/-! ## The functions -/

def parserOnHeaders (headers : List Bytes) (url : Bytes) (f : Fields) : Fields :=
  { f with
    headers :=
      -- once we exceeded headers limit - stop collecting them
      if f.maxHeaderPairs ≤ 0 ∨ (f.headers.length : Int) < f.maxHeaderPairs then
        f.headers ++ headers
      else f.headers
    url := f.url ++ url }

def parserOnHeadersComplete (args : HeadersComplete) (f : Fields) : Fields × List Event :=
  let (headers, f) :=
    match args.headers with
    | some headers => (headers, f)
    | none => (f.headers, { f with headers := [] })
  let (url, f) :=
    if args.url.getD [] = [] then (f.url, { f with url := [] }) else (args.url.getD [], f)
  let n := if f.maxHeaderPairs > 0 then min headers.length f.maxHeaderPairs.toNat
    else headers.length
  ({ f with incoming := true }, [.message
      { httpVersionMajor := args.versionMajor
        httpVersionMinor := args.versionMinor
        url
        rawHeaders := addHeaderLines headers n
        method := args.method
        statusCode := if args.method = none then args.statusCode else none
        statusMessage := if args.method = none then args.statusMessage else none
        upgrade := args.upgrade
        shouldKeepAlive := args.shouldKeepAlive }])

/-- `parserOnBody`; `dumped` tells whether the message has been given up. -/
def parserOnBody (dumped : Bool) (chunk : Bytes) (f : Fields) : List Event :=
  if f.incoming ∧ chunk ≠ [] ∧ dumped = false then [.body chunk] else []

def parserOnMessageComplete (f : Fields) : Fields × List Event :=
  if f.incoming then
    ({ f with headers := [], url := [] }, [.complete (addHeaderLines f.headers f.headers.length)])
  else (f, [])

/-- One call. The application is a function of what has been delivered: it tells whether the
message that is under way has been given up. -/
def handle (dumped : List Event → Bool) (state : Fields × List Event) : Call → Fields × List Event
  | .kOnHeaders headers url => (parserOnHeaders headers url state.1, state.2)
  | .kOnHeadersComplete args =>
    let (f, events) := parserOnHeadersComplete args state.1
    (f, state.2 ++ events)
  | .kOnBody chunk => (state.1, state.2 ++ parserOnBody (dumped state.2) chunk state.1)
  | .kOnMessageComplete =>
    let (f, events) := parserOnMessageComplete state.1
    (f, state.2 ++ events)

/-! ## Parsers -/

/-- A parser: the object and what it wraps. -/
structure HTTPParser where
  parser : Parser
  fields : Fields

/-- The constructor of `parsers` -/
def HTTPParser.new : HTTPParser :=
  { parser := Parser.new .request
    fields := { headers := [], url := [], maxHeaderPairs := 0, incoming := false } }

/-- A parser in use, and what it has delivered. -/
structure Connection where
  parser : HTTPParser
  delivered : List Event

def Connection.callback (dumped : List Event → Bool) (c : Connection) (cb : Callback) :
    Option Connection :=
  (c.parser.parser.callback cb).map fun (parser, calls) =>
    let (fields, delivered) := calls.foldl (handle dumped) (c.parser.fields, c.delivered)
    { parser := { parser, fields }, delivered }

/-- What a connection has delivered after some callbacks, or when a `CHECK` fails. -/
def Connection.deliveries (dumped : List Event → Bool) (c : Connection) : List Callback → List Event
  | [] => c.delivered
  | cb :: callbacks =>
    match c.callback dumped cb with
    | none => c.delivered
    | some c => c.deliveries dumped callbacks

/-- `freeParser`, of the object -/
def freeParser (p : HTTPParser) : HTTPParser :=
  { p with fields := { p.fields with headers := [], incoming := false } }

/-- `alloc`, `reinitialize` and what a connection sets -/
def HTTPParser.connect (p : HTTPParser) (type : ParserType) (maxHeaderPairs : Int) : Connection :=
  { parser :=
      { parser := p.parser.init type
        fields := { p.fields with maxHeaderPairs, incoming := false } }
    delivered := [] }

/-! ## The free list -/

/-- The parsers: those of the free list, and those of the connections. -/
structure Parsers where
  list : List HTTPParser
  connections : List Connection

namespace Parsers

/-- `max` of the free list -/
def max : Nat := 1000

def alloc (s : Parsers) : HTTPParser × List HTTPParser :=
  match s.list with
  | [] => (HTTPParser.new, [])
  | p :: list => (p, list)

/-- What happens to the parsers. -/
inductive Action where
  | connect (type : ParserType) (maxHeaderPairs : Int)
  | callbacks (i : Nat) (dumped : List Event → Bool) (callbacks : List Callback)
  | free (i : Nat)

/-- One step; there is none if the connection does not exist or a `CHECK` fails. -/
def step (s : Parsers) : Action → Option Parsers
  | .connect type maxHeaderPairs =>
    let (p, list) := s.alloc
    some { list, connections := s.connections ++ [p.connect type maxHeaderPairs] }
  | .callbacks i dumped callbacks => do
      let c ← s.connections[i]?
      let c ← callbacks.foldlM (Connection.callback dumped) c
      some { s with connections := s.connections.set i c }
  | .free i => do
      let c ← s.connections[i]?
      some
        { list := if s.list.length < max then s.list ++ [freeParser c.parser] else s.list
          connections := s.connections.eraseIdx i }

/-- No parser and no connection yet. -/
def empty : Parsers := { list := [], connections := [] }

/-- The parsers after a history. -/
def replay (history : List Action) : Option Parsers := history.foldlM step empty

end Parsers

end IoJs.Http
