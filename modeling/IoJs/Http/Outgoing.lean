import IoJs.Buffer

/-!
# `OutgoingMessage`

A message is sent in pieces. The header goes with the first of them, in one string where that can
be, else before it; as long as the message does not have the socket to itself, the pieces wait in
`output`.

What depends on Unicode, and the date, are parameters. Callbacks, corking and what a call returns
are left out.
-/

namespace IoJs.Http

open IoJs.Stream IoJs.RegExp

/-- What a message depends on -/
structure Environment where
  table : CaseTable
  /-- `text.toLowerCase()`; the letters of `__proto__` are the lower case of no other than ASCII -/
  toLowerCase : JSString → JSString
  toLowerCase_proto : ∀ name, toLowerCase name = js "__proto__" ↔
    Buffer.toLowerCase name = js "__proto__"
  /-- `utcDate()` -/
  utcDate : JSString
  utcDate_plain : ∀ unit ∈ utcDate, 0x20 ≤ unit.toNat ∧ unit.toNat < 0x7F

theorem plain_date : ∀ unit ∈ js "Thu, 01 Jan 1970 00:00:00 GMT",
    0x20 ≤ unit.toNat ∧ unit.toNat < 0x7F := by
  have all : (js "Thu, 01 Jan 1970 00:00:00 GMT").all
      (fun unit => decide (0x20 ≤ unit.toNat ∧ unit.toNat < 0x7F)) = true := by decide
  exact fun unit mem => of_decide_eq_true (List.all_eq_true.mp all unit mem)

/-- The upper case of the letters of ASCII -/
def asciiUpperCase (ch : UInt16) : JSString := if 0x61 ≤ ch ∧ ch ≤ 0x7A then [ch - 0x20] else [ch]

theorem asciiUpperCase_lower (ch : UInt16) (low : 0x61 ≤ ch) (high : ch ≤ 0x7A) :
    asciiUpperCase ch = [ch - 0x20] := if_pos ⟨low, high⟩

theorem asciiUpperCase_other (ch : UInt16) (_ascii : ch < 0x80) (other : ¬(0x61 ≤ ch ∧ ch ≤ 0x7A)) :
    asciiUpperCase ch = [ch] := if_neg other

/-- Letters of ASCII, and a date -/
def Environment.ascii : Environment where
  table :=
    { toUpperCase := asciiUpperCase
      lower := asciiUpperCase_lower
      other := asciiUpperCase_other }
  toLowerCase := Buffer.toLowerCase
  toLowerCase_proto := fun _ => Iff.rfl
  utcDate := js "Thu, 01 Jan 1970 00:00:00 GMT"
  utcDate_plain := plain_date

def crlf : JSString := [0x0D, 0x0A]

/-- `crlf_buf` -/
def crlfBuffer : List UInt8 := [0x0D, 0x0A]

/-- `n.toString(16)` -/
def hex (n : Nat) : JSString := (Nat.toDigits 16 n).map unit

/-- `n.toString()` -/
def decimal (n : Nat) : JSString := (Nat.toDigits 10 n).map unit

/-! ## Data -/

/-- What is sent: a string or a Buffer -/
inductive Data where
  | string (text : JSString)
  | buffer (bytes : List UInt8)
  deriving DecidableEq

def Data.length : Data → Nat
  | .string text => text.length
  | .buffer bytes => bytes.length

/-- An element of `output`, with its encoding -/
structure Piece where
  data : Data
  encoding : Option JSString
  deriving DecidableEq

/-- What a message sees of its connection: is it `connection._httpMessage`, and what is left of
the connection. -/
structure Link where
  own : Bool
  writable : Bool
  destroyed : Bool

/-- The value of a header -/
inductive Value where
  | one (text : JSString)
  | array (texts : List JSString)

def Value.texts : Value → List JSString
  | .one text => [text]
  | .array texts => texts

structure RemovedHeader where
  connection : Bool
  contentLength : Bool
  transferEncoding : Bool

/-- An entry of `_headers` and of `_headerNames` -/
structure Entry where
  key : JSString
  name : JSString
  value : Value

/-- `OutgoingMessage`, and what a `ServerResponse` adds to it -/
structure OutgoingMessage where
  output : List Piece
  last : Bool
  chunkedEncoding : Bool
  shouldKeepAlive : Bool
  useChunkedEncodingByDefault : Bool
  sendDate : Bool
  removedHeader : RemovedHeader
  contentLength : Option Nat
  hasBody : Bool
  trailer : JSString
  finished : Bool
  headerSent : Bool
  header : Option JSString
  headers : Option (List Entry)
  agent : Bool
  -- of a `ServerResponse`
  statusCode : Option Nat
  statusMessage : Option JSString
  expectContinue : Bool
  sent100 : Bool

namespace OutgoingMessage

/-- The constructor -/
def new : OutgoingMessage :=
  { output := []
    last := false
    chunkedEncoding := false
    shouldKeepAlive := true
    useChunkedEncodingByDefault := true
    sendDate := false
    removedHeader := ⟨false, false, false⟩
    contentLength := none
    hasBody := true
    trailer := []
    finished := false
    headerSent := false
    header := none
    headers := none
    agent := false
    statusCode := none
    statusMessage := none
    expectContinue := false
    sent100 := false }

/-! ## Sending

A function that sends returns what it writes to the connection. -/

def writeRaw (link : Option Link) (piece : Piece) (m : OutgoingMessage) :
    OutgoingMessage × List Piece :=
  if piece.data.length = 0 then (m, [])
  else
    match link with
    | some l =>
      if l.own ∧ l.writable ∧ ¬ l.destroyed then
        -- there might be pending data in `output`
        ({ m with output := [] }, m.output ++ [piece])
      else if l.destroyed then (m, [])
      else ({ m with output := m.output ++ [piece] }, [])
    | none => ({ m with output := m.output ++ [piece] }, [])

/-- `_header`, as it is concatenated -/
def headerText (m : OutgoingMessage) : JSString := m.header.getD (js "null")

/-- The string of a piece that the header may be put before. -/
def Prefixable (piece : Piece) : Option JSString :=
  match piece.data with
  | .string text =>
    if piece.encoding ≠ some (js "hex") ∧ piece.encoding ≠ some (js "base64") then some text
    else none
  | .buffer _ => none

def send (link : Option Link) (piece : Piece) (m : OutgoingMessage) :
    OutgoingMessage × List Piece :=
  if m.headerSent then m.writeRaw link piece
  else
    match Prefixable piece with
    | some text =>
      { m with headerSent := true }.writeRaw link
        { piece with data := .string (m.headerText ++ text) }
    | none =>
      { m with
        headerSent := true
        output := { data := .string m.headerText, encoding := some (js "binary") } :: m.output
      }.writeRaw link piece

/-- One piece after the other -/
def sends (link : Option Link) : List Piece → OutgoingMessage → OutgoingMessage × List Piece
  | [], m => (m, [])
  | piece :: pieces, m =>
    let (m, written) := m.send link piece
    let (m, more) := m.sends link pieces
    (m, written ++ more)

/-- `_flush`, of a message that has its socket -/
def flush (m : OutgoingMessage) : OutgoingMessage × List Piece :=
  ({ m with output := [] }, m.output)

/-! ## The header -/

/-- A field name is a name of the source, whatever its case. -/
def fieldIs (env : Environment) (name : String) (field : JSString) : Bool :=
  field.map env.table.canonicalize == (js name).map env.table.canonicalize

/-- A value contains a word, whatever its case. -/
def contains (env : Environment) (word : String) (value : JSString) : Bool :=
  value.tails.any fun rest =>
    (rest.take word.length).map env.table.canonicalize == (js word).map env.table.canonicalize

/-- `value.replace(/[\r\n]+[ \t]*/g, '')`; `blank` tells whether a match is under way. -/
def sanitize (blank : Bool) : JSString → JSString
  | [] => []
  | ch :: rest =>
    if ch = 0x0D ∨ ch = 0x0A then sanitize true rest
    else if blank ∧ (ch = 0x20 ∨ ch = 0x09) then sanitize true rest
    else ch :: sanitize false rest

/-- `state` of `_storeHeader` -/
structure HeaderState where
  sentConnectionHeader : Bool
  sentContentLengthHeader : Bool
  sentTransferEncodingHeader : Bool
  sentDateHeader : Bool
  sentExpect : Bool
  sentTrailer : Bool
  messageHeader : JSString

def storeHeader (env : Environment) (field value : JSString)
    (r : OutgoingMessage × HeaderState) : OutgoingMessage × HeaderState :=
  let (m, state) := r
  -- protect against response splitting
  let value := sanitize false value
  let state :=
    { state with messageHeader := state.messageHeader ++ field ++ js ": " ++ value ++ crlf }
  if fieldIs env "Connection" field then
    (if contains env "close" value then { m with last := true }
      else { m with shouldKeepAlive := true },
      { state with sentConnectionHeader := true })
  else if fieldIs env "Transfer-Encoding" field then
    (if contains env "chunk" value then { m with chunkedEncoding := true } else m,
      { state with sentTransferEncodingHeader := true })
  else if fieldIs env "Content-Length" field then (m,
    { state with sentContentLengthHeader := true })
  else if fieldIs env "Date" field then (m, { state with sentDateHeader := true })
  else if fieldIs env "Expect" field then (m, { state with sentExpect := true })
  else if fieldIs env "Trailer" field then (m, { state with sentTrailer := true })
  else (m, state)

/-- The fields with one value each -/
def fieldLines (headers : List (JSString × Value)) : List (JSString × JSString) :=
  headers.flatMap fun header => header.2.texts.map fun text => (header.1, text)

/-- The fields of `_storeHeader` -/
def storeFields (env : Environment) (headers : List (JSString × Value))
    (r : OutgoingMessage × HeaderState) : OutgoingMessage × HeaderState :=
  (fieldLines headers).foldl (fun r line => storeHeader env line.1 line.2 r) r

def storeDate (env : Environment) (r : OutgoingMessage × HeaderState) :
    OutgoingMessage × HeaderState :=
  let (m, state) := r
  if m.sendDate ∧ state.sentDateHeader = false then
    (m, { state with
      messageHeader := state.messageHeader ++ js "Date: " ++ env.utcDate ++ crlf })
  else (m, state)

/-- Force the connection to close where there is to be no chunk. -/
def forceClose (m : OutgoingMessage) : OutgoingMessage :=
  if (m.statusCode = some 204 ∨ m.statusCode = some 304) ∧ m.chunkedEncoding then
    { m with chunkedEncoding := false, shouldKeepAlive := false }
  else m

/-- The keep-alive logic -/
def storeConnection (r : OutgoingMessage × HeaderState) : OutgoingMessage × HeaderState :=
  let (m, state) := r
  if m.removedHeader.connection then ({ m with last := true, shouldKeepAlive := false }, state)
  else if state.sentConnectionHeader = false then
    if m.shouldKeepAlive ∧
        (state.sentContentLengthHeader ∨ m.useChunkedEncodingByDefault ∨ m.agent) then
      (m, { state with
        messageHeader := state.messageHeader ++ js "Connection: keep-alive" ++ crlf })
    else
      ({ m with last := true },
        { state with messageHeader := state.messageHeader ++ js "Connection: close" ++ crlf })
  else (m, state)

/-- How the length of the body is told -/
def storeFraming (r : OutgoingMessage × HeaderState) : OutgoingMessage × HeaderState :=
  let (m, state) := r
  if state.sentContentLengthHeader = false ∧ state.sentTransferEncodingHeader = false then
    if m.hasBody = false then
      -- make sure that there is no 0\r\n\r\n at the end of the message
      ({ m with chunkedEncoding := false }, state)
    else if m.useChunkedEncodingByDefault = false then ({ m with last := true }, state)
    else
      match m.contentLength, state.sentTrailer || m.removedHeader.contentLength with
      | some n, false =>
        (m, { state with
          messageHeader := state.messageHeader ++ js "Content-Length: " ++ decimal n ++ crlf })
      | _, _ =>
        if m.removedHeader.transferEncoding = false then
          ({ m with chunkedEncoding := true }, { state with
              messageHeader := state.messageHeader ++ js "Transfer-Encoding: chunked" ++ crlf })
        else (m, state)
  else (m, state)

def storeHeaders (env : Environment) (link : Option Link) (firstLine : JSString)
    (headers : List (JSString × Value)) (m : OutgoingMessage) : OutgoingMessage × List Piece :=
  let state : HeaderState :=
    { sentConnectionHeader := false
      sentContentLengthHeader := false
      sentTransferEncodingHeader := false
      sentDateHeader := false
      sentExpect := false
      sentTrailer := false
      messageHeader := firstLine }
  let (m, state) := storeDate env (storeFields env headers (m, state))
  let (m, state) := storeFraming (storeConnection (m.forceClose, state))
  let m := { m with header := some (state.messageHeader ++ crlf), headerSent := false }
  -- wait until the first body chunk, unless we are sending Expect: 100-continue
  if state.sentExpect then m.send link { data := .string [], encoding := none } else (m, [])

/-! ## The headers that are set -/

/-- Is a name that of an element of an array? -/
def arrayIndex (key : JSString) : Option Nat :=
  if key ≠ [] ∧ key.all (fun ch => 0x30 ≤ ch && ch ≤ 0x39) ∧
    (key.length = 1 ∨ key.head? ≠ some 0x30)
  then
    let n := key.foldl (fun n ch => 10 * n + (ch.toNat - 0x30)) 0
    if n < 2 ^ 32 - 1 then some n else none
  else none

/-- A new property goes behind the others, or between them by its number. -/
def addProperty (entry : Entry) : List Entry → List Entry
  | [] => [entry]
  | first :: entries =>
    match arrayIndex entry.key, arrayIndex first.key with
    | some n, some n' =>
      if n < n' then entry :: first :: entries else first :: addProperty entry entries
    | some _, none => entry :: first :: entries
    | none, _ => first :: addProperty entry entries

/-- `object[key] = value`; the setter of `Object.prototype` takes what is assigned to `__proto__`,
and no property comes of it. -/
def assign (entry : Entry) (entries : List Entry) : List Entry :=
  if entry.key = js "__proto__" then entries
  else if entries.any (·.key = entry.key) then
    entries.map fun e => if e.key = entry.key then entry else e
  else addProperty entry entries

/-- `setHeader`; it throws when the header has been stored. -/
def setHeader (env : Environment) (name : JSString) (value : Value) (m : OutgoingMessage) :
    Option OutgoingMessage :=
  if m.header.isSome then none
  else
    let key := env.toLowerCase name
    let removed := m.removedHeader
    some
      { m with
        headers := some (assign { key, name, value } (m.headers.getD []))
        removedHeader :=
          { connection := removed.connection && key ≠ js "connection"
            contentLength := removed.contentLength && key ≠ js "content-length"
            transferEncoding := removed.transferEncoding && key ≠ js "transfer-encoding" } }

/-- `removeHeader`; it throws when the header has been stored. -/
def removeHeader (env : Environment) (name : JSString) (m : OutgoingMessage) :
    Option OutgoingMessage :=
  if m.header.isSome then none
  else
    let key := env.toLowerCase name
    let removed := m.removedHeader
    some
      { m with
        sendDate := m.sendDate && key ≠ js "date"
        removedHeader :=
          { connection := removed.connection || key = js "connection"
            contentLength := removed.contentLength || key = js "content-length"
            transferEncoding := removed.transferEncoding || key = js "transfer-encoding" }
        headers := m.headers.map fun entries => entries.filter (·.key ≠ key) }

/-- `_renderHeaders`; it throws when the header has been stored. -/
def renderHeaders (m : OutgoingMessage) : Option (List (JSString × Value)) :=
  if m.header.isSome then none
  else
    let entries := (m.headers.getD []).foldl
      (fun entries e => assign { key := e.name, name := e.name, value := e.value } entries) []
    some (entries.map fun e => (e.name, e.value))

def addTrailers (headers : List (JSString × JSString)) (m : OutgoingMessage) : OutgoingMessage :=
  { m with
    trailer := headers.flatMap fun header => header.1 ++ js ": " ++ header.2 ++ crlf }

/-! ## The body -/

/-- `Buffer.byteLength(data, encoding)`, or the length of a Buffer -/
def byteLength (encoding : Option JSString) : Data → Nat
  | .string text => Buffer.byteLength text encoding
  | .buffer bytes => bytes.length

/-- What is sent for a chunk in chunked coding: one string, or four pieces. -/
def frame (chunk : Data) (encoding : Option JSString) : List Piece :=
  let size := hex (byteLength encoding chunk)
  let pieces : List Piece :=
    [{ data := .string size, encoding := some (js "binary") },
      { data := .buffer crlfBuffer, encoding := none },
      { data := chunk, encoding },
      { data := .buffer crlfBuffer, encoding := none }]
  match chunk with
  | .string text =>
    if encoding ≠ some (js "hex") ∧ encoding ≠ some (js "base64") ∧
        encoding ≠ some (js "binary") then
      [{ data := .string (size ++ crlf ++ text ++ crlf), encoding }]
    else pieces
  | .buffer _ => pieces

/-- What `write` sends for a chunk. -/
def body (chunk : Data) (encoding : Option JSString) (m : OutgoingMessage) : List Piece :=
  if m.hasBody = false ∨ chunk.length = 0 then []
  else if m.chunkedEncoding then frame chunk encoding
  else [{ data := chunk, encoding }]

/-- What `end` sends at the end. -/
def lastPiece (m : OutgoingMessage) : Piece :=
  if m.hasBody ∧ m.chunkedEncoding then
    { data := .string (js "0" ++ crlf ++ m.trailer ++ crlf), encoding := some (js "binary") }
  else
    -- force a flush
    { data := .string [], encoding := some (js "binary") }

section Body

variable (link : Option Link) (implicitHeader : OutgoingMessage → OutgoingMessage × List Piece)

/-- Store the header if there is none. -/
def ensureHeader (m : OutgoingMessage) : OutgoingMessage × List Piece :=
  if m.header.isNone then implicitHeader m else (m, [])

def write (chunk : Data) (encoding : Option JSString) (m : OutgoingMessage) :
    OutgoingMessage × List Piece :=
  if m.finished then (m, [])
  else
    let (m, first) := m.ensureHeader implicitHeader
    let (m, rest) := m.sends link (m.body chunk encoding)
    (m, first ++ rest)

/-- The data of `end`: an empty string is none. -/
def given : Option Data → Option Data
  | some (.string []) => none
  | data => data

def end_ (data : Option Data) (encoding : Option JSString) (m : OutgoingMessage) :
    OutgoingMessage × List Piece :=
  if m.finished then (m, [])
  else
    let data := given data
    let m := if m.header.isNone then
        { m with contentLength := some ((data.map (byteLength encoding)).getD 0) }
      else m
    let (m, first) := m.ensureHeader implicitHeader
    let (m, second) :=
      match data with
      | some chunk => m.write link implicitHeader chunk encoding
      | none => (m, [])
    let (m, third) := m.send link m.lastPiece
    ({ m with finished := true }, first ++ second ++ third)

end Body

/-! ## `ServerResponse` -/

/-- The status messages of `STATUS_CODES` -/
def statusCodes : Nat → Option String
  | 100 => some "Continue"
  | 101 => some "Switching Protocols"
  | 102 => some "Processing"
  | 200 => some "OK"
  | 201 => some "Created"
  | 202 => some "Accepted"
  | 203 => some "Non-Authoritative Information"
  | 204 => some "No Content"
  | 205 => some "Reset Content"
  | 206 => some "Partial Content"
  | 207 => some "Multi-Status"
  | 300 => some "Multiple Choices"
  | 301 => some "Moved Permanently"
  | 302 => some "Moved Temporarily"
  | 303 => some "See Other"
  | 304 => some "Not Modified"
  | 305 => some "Use Proxy"
  | 307 => some "Temporary Redirect"
  | 308 => some "Permanent Redirect"
  | 400 => some "Bad Request"
  | 401 => some "Unauthorized"
  | 402 => some "Payment Required"
  | 403 => some "Forbidden"
  | 404 => some "Not Found"
  | 405 => some "Method Not Allowed"
  | 406 => some "Not Acceptable"
  | 407 => some "Proxy Authentication Required"
  | 408 => some "Request Time-out"
  | 409 => some "Conflict"
  | 410 => some "Gone"
  | 411 => some "Length Required"
  | 412 => some "Precondition Failed"
  | 413 => some "Request Entity Too Large"
  | 414 => some "Request-URI Too Large"
  | 415 => some "Unsupported Media Type"
  | 416 => some "Requested Range Not Satisfiable"
  | 417 => some "Expectation Failed"
  | 418 => some "I'm a teapot"
  | 422 => some "Unprocessable Entity"
  | 423 => some "Locked"
  | 424 => some "Failed Dependency"
  | 425 => some "Unordered Collection"
  | 426 => some "Upgrade Required"
  | 428 => some "Precondition Required"
  | 429 => some "Too Many Requests"
  | 431 => some "Request Header Fields Too Large"
  | 500 => some "Internal Server Error"
  | 501 => some "Not Implemented"
  | 502 => some "Bad Gateway"
  | 503 => some "Service Unavailable"
  | 504 => some "Gateway Time-out"
  | 505 => some "HTTP Version Not Supported"
  | 506 => some "Variant Also Negotiates"
  | 507 => some "Insufficient Storage"
  | 509 => some "Bandwidth Limit Exceeded"
  | 510 => some "Not Extended"
  | 511 => some "Network Authentication Required"
  | _ => none

/-- The new response to a request: that of HTTP/1.1, and what the parser says about keeping the
connection. -/
def serverResponse (isHead shouldKeepAlive : Bool) : OutgoingMessage :=
  { new with
    hasBody := !isHead
    sendDate := true
    statusCode := some 200
    shouldKeepAlive }

/-- What `writeContinue` writes. -/
def continueText : JSString := js "HTTP/1.1 100 Continue" ++ crlf ++ crlf

def writeContinue (link : Option Link) (m : OutgoingMessage) : OutgoingMessage × List Piece :=
  let (m, written) := m.writeRaw link
    { data := .string continueText, encoding := some (js "ascii") }
  ({ m with sent100 := true }, written)

/-- `this.statusMessage || STATUS_CODES[statusCode] || 'unknown'`, where no reason is given -/
def reasonPhrase (statusCode : Nat) (reason : Option JSString) (m : OutgoingMessage) : JSString :=
  match reason with
  | some reason => reason
  | none =>
    let statusMessage := m.statusMessage.getD []
    if statusMessage ≠ [] then statusMessage else js ((statusCodes statusCode).getD "unknown")

def statusLine (statusCode : Nat) (statusMessage : JSString) : JSString :=
  js "HTTP/1.1 " ++ decimal statusCode ++ js " " ++ statusMessage ++ crlf

/-- The request line of a `ClientRequest` -/
def requestLine (method path : JSString) : JSString :=
  method ++ js " " ++ path ++ js " HTTP/1.1" ++ crlf

/-- Has a response with this status no body? -/
def noBody (statusCode : Nat) : Bool :=
  statusCode = 204 || statusCode = 304 || (100 ≤ statusCode && statusCode ≤ 199)

/-- The headers that are passed to `writeHead` beside those that are set; it throws when the header
has been stored. -/
def setHeaders (env : Environment) (obj : List (JSString × Value)) (m : OutgoingMessage) :
    Option OutgoingMessage :=
  (obj.filter (·.1 ≠ [])).foldlM (fun m header => m.setHeader env header.1 header.2) m

/-- The headers of `writeHead`: those that are set, or those that are passed alone. -/
def headersOf (env : Environment) (obj : List (JSString × Value)) (m : OutgoingMessage) :
    Option (OutgoingMessage × List (JSString × Value)) :=
  if m.headers.isSome then
    (m.setHeaders env obj).bind fun m => m.renderHeaders.map fun headers => (m, headers)
  else some (m, obj)

/-- `writeHead`; where it throws, the status has changed and nothing else. -/
def writeHead (env : Environment) (link : Option Link) (statusCode : Nat)
    (reason : Option JSString) (obj : List (JSString × Value)) (m : OutgoingMessage) :
    OutgoingMessage × List Piece :=
  let statusMessage := m.reasonPhrase statusCode reason
  let m := { m with statusMessage := some statusMessage, statusCode := some statusCode }
  match m.headersOf env obj with
  | none => (m, [])
  | some (m, headers) =>
    { m with
      hasBody := m.hasBody && !noBody statusCode
      -- the client may put extra bytes on the wire
      shouldKeepAlive := m.shouldKeepAlive && !(m.expectContinue && !m.sent100)
    }.storeHeaders env link (statusLine statusCode statusMessage) headers

def implicitHeader (env : Environment) (link : Option Link) (m : OutgoingMessage) :
    OutgoingMessage × List Piece :=
  m.writeHead env link (m.statusCode.getD 200) none []

end OutgoingMessage

end IoJs.Http
