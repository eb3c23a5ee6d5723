import Mathlib.Data.UInt

/-!
# The binding of `http_parser`

`Parser` collects what `http_parser` reports and calls the functions of the JavaScript object.
Headers that do not fit into the arrays are flushed.
-/

namespace IoJs.Http

/-- A string of one byte characters. -/
abbrev Bytes := List UInt8

/-- `http_parser_type` -/
inductive ParserType where
  | request
  | response
  deriving DecidableEq

/-- What `http_parser` knows when the headers are complete. -/
structure Head where
  httpMajor : Nat
  httpMinor : Nat
  method : Nat
  statusCode : Nat
  upgrade : Bool
  shouldKeepAlive : Bool

/-- The callbacks of `http_parser` -/
inductive Callback where
  | onMessageBegin
  | onUrl (data : Bytes)
  | onStatus (data : Bytes)
  | onHeaderField (data : Bytes)
  | onHeaderValue (data : Bytes)
  | onHeadersComplete (head : Head)
  | onBody (data : Bytes)
  | onMessageComplete

/-- The arguments of `kOnHeadersComplete` -/
structure HeadersComplete where
  versionMajor : Nat
  versionMinor : Nat
  headers : Option (List Bytes)
  method : Option Nat
  url : Option Bytes
  statusCode : Option Nat
  statusMessage : Option Bytes
  upgrade : Bool
  shouldKeepAlive : Bool

/-- A call of a function of the JavaScript object. -/
inductive Call where
  | kOnHeaders (headers : List Bytes) (url : Bytes)
  | kOnHeadersComplete (args : HeadersComplete)
  | kOnBody (data : Bytes)
  | kOnMessageComplete

structure Parser where
  type : ParserType
  fields : Nat → Bytes
  values : Nat → Bytes
  url : Bytes
  statusMessage : Bytes
  numFields : Nat
  numValues : Nat
  haveFlushed : Bool

namespace Parser

/-- `ARRAY_SIZE(fields_)` and `ARRAY_SIZE(values_)` -/
def arraySize : Nat := 32

def init (type : ParserType) (p : Parser) : Parser :=
  { p with
    type
    url := []
    statusMessage := []
    numFields := 0
    numValues := 0
    haveFlushed := false }

/-- The constructor -/
def new (type : ParserType) : Parser :=
  init type
    { type
      fields := fun _ => []
      values := fun _ => []
      url := []
      statusMessage := []
      numFields := 0
      numValues := 0
      haveFlushed := false }

def createHeaders (p : Parser) : List Bytes :=
  (List.range p.numValues).flatMap fun i => [p.fields i, p.values i]

def flush (p : Parser) : Parser × List Call :=
  ({ p with url := [], haveFlushed := true }, [.kOnHeaders p.createHeaders p.url])

def onMessageBegin (p : Parser) : Parser :=
  { p with numFields := 0, numValues := 0, url := [], statusMessage := [] }

/-- The start of a new field name -/
def newField (p : Parser) : Parser × List Call :=
  let p := { p with numFields := p.numFields + 1 }
  let (p, calls) :=
    -- ran out of space
    if p.numFields = arraySize then
      let (p, calls) := p.flush
      ({ p with numFields := 1, numValues := 0 }, calls)
    else (p, [])
  ({ p with fields := Function.update p.fields (p.numFields - 1) [] }, calls)

/-- `on_header_field`; there is no result if a `CHECK` fails. -/
def onHeaderField (data : Bytes) (p : Parser) : Option (Parser × List Call) :=
  let (p, calls) := if p.numFields = p.numValues then p.newField else (p, [])
  if p.numFields < arraySize ∧ p.numFields = p.numValues + 1 then
    let i := p.numFields - 1
    some ({ p with fields := Function.update p.fields i (p.fields i ++ data) }, calls)
  else none

/-- The start of a new header value -/
def newValue (p : Parser) : Parser :=
  let p := { p with numValues := p.numValues + 1 }
  { p with values := Function.update p.values (p.numValues - 1) [] }

/-- `on_header_value`; there is no result if a `CHECK` fails, nor for a value without a field,
which is written before the array. -/
def onHeaderValue (data : Bytes) (p : Parser) : Option (Parser × List Call) :=
  let p := if p.numValues ≠ p.numFields then p.newValue else p
  if p.numValues < arraySize ∧ p.numValues = p.numFields ∧ p.numValues ≠ 0 then
    let i := p.numValues - 1
    some ({ p with values := Function.update p.values i (p.values i ++ data) }, [])
  else none

def onHeadersComplete (head : Head) (p : Parser) : Parser × List Call :=
  let (p, calls, headers, url) :=
    if p.haveFlushed then
      -- slow case, flush remaining headers
      let (p, calls) := p.flush
      (p, calls, none, none)
    else
      -- fast case, pass headers and URL
      (p, [], some p.createHeaders, if p.type = .request then some p.url else none)
  let args : HeadersComplete :=
    { versionMajor := head.httpMajor
      versionMinor := head.httpMinor
      headers
      method := if p.type = .request then some head.method else none
      url
      statusCode := if p.type = .response then some head.statusCode else none
      statusMessage := if p.type = .response then some p.statusMessage else none
      upgrade := head.upgrade
      shouldKeepAlive := head.shouldKeepAlive }
  ({ p with numFields := 0, numValues := 0 }, calls ++ [.kOnHeadersComplete args])

def onMessageComplete (p : Parser) : Parser × List Call :=
  -- flush trailing HTTP headers
  let (p, calls) := if p.numFields ≠ 0 then p.flush else (p, [])
  (p, calls ++ [.kOnMessageComplete])

def callback (p : Parser) : Callback → Option (Parser × List Call)
  | .onMessageBegin => some (p.onMessageBegin, [])
  | .onUrl data => some ({ p with url := p.url ++ data }, [])
  | .onStatus data => some ({ p with statusMessage := p.statusMessage ++ data }, [])
  | .onHeaderField data => p.onHeaderField data
  | .onHeaderValue data => p.onHeaderValue data
  | .onHeadersComplete head => some (p.onHeadersComplete head)
  | .onBody data => some (p, [.kOnBody data])
  | .onMessageComplete => some p.onMessageComplete

/-- The calls that some callbacks come to, up to a `CHECK` that fails. -/
def calls (p : Parser) : List Callback → List Call
  | [] => []
  | c :: callbacks =>
    match p.callback c with
    | none => []
    | some (p, made) => made ++ p.calls callbacks

end Parser

end IoJs.Http
