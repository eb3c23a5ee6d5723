import IoJs.Http.Framing

/-!
# The body is read back

The calls on a response, one after the other: its header, given by `writeHead` or left to the first
call, then `write` and `end`, and at some point among them the socket. When the response is
finished, a receiver reads the chunks that were written, and nothing is left over, if and only if
the lines that were given to the header are lines of a header and none of them announces a length
of its own.
-/

namespace IoJs.Http

open IoJs.Stream IoJs.RegExp IoJs.Buffer IoJs.Library OutgoingMessage
open List hiding set

/-- What is passed to `writeHead` -/
structure ResponseHead where
  statusCode : Nat
  reason : Option JSString
  obj : List (JSString × Value)

namespace ResponseHead

/-- What `_implicitHeader` passes -/
def implicit (m : OutgoingMessage) : ResponseHead := ⟨m.statusCode.getD 200, none, []⟩

def call (head : ResponseHead) : ResponseCall := .writeHead head.statusCode head.reason head.obj

/-- The fields that are set or passed -/
def fields (env : Environment) (head : ResponseHead) (m : OutgoingMessage) :
    List (JSString × JSString) :=
  m.givenFields env head.obj

/-- The lines of these fields, behind the status line -/
def lines (env : Environment) (head : ResponseHead) (m : OutgoingMessage) : List JSString :=
  givenLines env head.statusCode head.reason head.obj m

end ResponseHead

/-! ## Calls -/

/-- A call for the body: a Buffer or a string in UTF-8, or the socket -/
def ResponseCall.IsBody : ResponseCall → Prop
  | .write chunk encoding => IsChunk chunk encoding
  | .end_ data encoding => ∀ chunk ∈ data, IsChunk chunk encoding
  | .assignSocket => True
  | _ => False

/-- The chunks up to the end, one behind the other -/
def payload : List ResponseCall → List UInt8
  | [] => []
  | .write chunk _ :: calls => chunk.bytes ++ payload calls
  | .end_ data _ :: _ => endBytes data
  | _ :: calls => payload calls

/-- How a header is encoded that waits for the first chunk that is not empty -/
def waitingCharset : List ResponseCall → Charset
  | [] => .oneByte
  | .write chunk _ :: calls => if chunk.length = 0 then waitingCharset calls else chunk.charset
  | .end_ data _ :: _ => endCharset data
  | _ :: calls => waitingCharset calls

namespace Response

variable {env : Environment} {ways : Piece → Way} {r r' : Response}

/-- What a call does to the message, and what it writes -/
def result (env : Environment) (r : Response) : ResponseCall → OutgoingMessage × List Piece
  | .assignSocket => r.message.flush
  | .writeContinue => r.message.writeContinue r.link
  | .setHeader name value => ((r.message.setHeader env name value).getD r.message, [])
  | .writeHead statusCode reason obj => r.message.writeHead env r.link statusCode reason obj
  | .write chunk encoding => r.message.write r.link (implicitHeader env r.link) chunk encoding
  | .end_ data encoding => r.message.end_ r.link (implicitHeader env r.link) data encoding

theorem finish_message (r : Response) : r.finish.message = r.message := by
  rw [finish]
  split <;> rfl

theorem finish_wire (r : Response) : r.finish.wire = r.wire := by
  rw [finish]
  split <;> rfl

/-- A step sets the message, and adds to the wire. -/
theorem step_result {call : ResponseCall} (stepped : r.step env call = some r') :
    r'.message = (r.result env call).1 ∧ r'.wire = r.wire ++ (r.result env call).2 := by
  cases call with
  | assignSocket =>
    simp only [step] at stepped
    split at stepped
    · rw [← Option.some.inj stepped, finish_message, finish_wire]
      exact ⟨rfl, rfl⟩
    · cases stepped
  | writeContinue | writeHead | write =>
    cases stepped
    exact ⟨rfl, rfl⟩
  | setHeader =>
    cases stepped
    exact ⟨rfl, (append_nil _).symm⟩
  | end_ =>
    rw [← Option.some.inj stepped, finish_message, finish_wire]
    exact ⟨rfl, rfl⟩

end Response

section Steps

variable {env : Environment} {ways : Piece → Way} {link : Option Link} {given : List JSString}
  {charset : Charset} {m : OutgoingMessage} {wire : List Piece}
  {implicitHeader : OutgoingMessage → OutgoingMessage × List Piece}

theorem wireBytes_flush (m : OutgoingMessage) (wire : List Piece) :
    wireBytes ways (wire ++ m.flush.2 ++ m.flush.1.output) = wireBytes ways (wire ++ m.output) := by
  simp [flush]

theorem Headed.ensureHeader {length : Option Nat} (headed : Headed env given length m) :
    m.ensureHeader implicitHeader = (m, []) := by
  obtain ⟨header, eq, -⟩ := headed.header
  rw [OutgoingMessage.ensureHeader, if_neg]
  rw [eq]
  simp

theorem Headed.withLength {length : Option Nat} (headed : Headed env given length m)
    (data : Option Data) (encoding : Option JSString) : m.withLength data encoding = m := by
  obtain ⟨header, eq, -⟩ := headed.header
  rw [OutgoingMessage.withLength, if_neg]
  rw [eq]
  simp

theorem Headed.write_eq {length : Option Nat} (headed : Headed env given length m) (chunk : Data)
    (encoding : Option JSString) :
    m.write link implicitHeader chunk encoding = m.sends link (m.body chunk encoding) := by
  rw [OutgoingMessage.write_eq chunk encoding headed.unfinished]
  simp [headed.ensureHeader]

theorem Headed.end_eq {length : Option Nat} (headed : Headed env given length m)
    (data : Option Data) (encoding : Option JSString) :
    m.end_ link implicitHeader data encoding =
      ({ (m.sends link (m.ending data encoding)).1 with finished := true },
        (m.sends link (m.ending data encoding)).2) := by
  obtain ⟨header, eq, -⟩ := headed.header
  have first : (m.withLength data encoding).ensureHeader implicitHeader = (m, []) := by
    rw [headed.withLength, headed.ensureHeader]
  rw [OutgoingMessage.end_eq data encoding headed.unfinished]
  · simp [first]
  · rw [first, eq]
    rfl
  rw [first]
  exact headed.unfinished

theorem Held.flush (held : Held env given m wire) :
    Held env given m.flush.1 (wire ++ m.flush.2) where
  headed := ⟨held.headed.header, held.headed.hasBody, held.headed.trailer, held.headed.unfinished,
    held.headed.chunkedEncoding⟩
  unsent := held.unsent
  output := rfl
  wire := by rw [OutgoingMessage.flush, held.wire, held.output, append_nil]

theorem Open.flush {chunks : List (List UInt8)}
    (open_ : Open env ways given charset chunks m wire) :
    Open env ways given charset chunks m.flush.1 (wire ++ m.flush.2) where
  headed := ⟨open_.headed.header, open_.headed.hasBody, open_.headed.trailer,
    open_.headed.unfinished, open_.headed.chunkedEncoding⟩
  sent := open_.sent
  filled := open_.filled
  bytes := (wireBytes_flush m wire).trans open_.bytes

theorem Closed.flush {payload : List UInt8}
    (closed : Closed env ways given charset payload m wire) :
    Closed env ways given charset payload m.flush.1 (wire ++ m.flush.2) where
  finished := closed.finished
  complete := by
    obtain ⟨length, header, body, eq, isHeader, bytes, reads⟩ := closed.complete
    exact ⟨length, header, body, eq, isHeader, (wireBytes_flush m wire).trans bytes, reads⟩

end Steps

/-! ## Runs -/

section Runs

variable {env : Environment} {ways : Piece → Way} {given : List JSString} {charset : Charset}
  {r r' : Response} {calls : List ResponseCall}

theorem foldlM_cons_eq_some {call : ResponseCall} {calls : List ResponseCall}
    (run : (call :: calls).foldlM (Response.step env) r = some r') :
    ∃ middle, r.step env call = some middle ∧
      calls.foldlM (Response.step env) middle = some r' := by
  exact Option.bind_eq_some_iff.mp run

/-- Behind the end no call changes the body. -/
theorem Closed.run {payload : List UInt8}
    (closed : Closed env ways given charset payload r.message r.wire)
    (body : ∀ call ∈ calls, call.IsBody) (run : calls.foldlM (Response.step env) r = some r') :
    Closed env ways given charset payload r'.message r'.wire := by
  induction calls generalizing r with
  | nil => grind
  | cons call calls ih =>
    obtain ⟨here, others⟩ := forall_mem_cons.mp body
    obtain ⟨middle, stepped, rest⟩ := foldlM_cons_eq_some run
    obtain ⟨message, wire⟩ := Response.step_result stepped
    refine ih ?_ others rest
    rw [message, wire]
    cases call with
    | assignSocket => exact closed.flush
    | writeContinue | setHeader | writeHead => exact here.elim
    | write =>
      simpa [Response.result, OutgoingMessage.write, closed.finished] using closed
    | end_ =>
      simpa [Response.result, OutgoingMessage.end_, closed.finished] using closed

/-- Behind the first chunks, the body is these and what the calls give. -/
theorem Open.run {chunks : List (List UInt8)}
    (open_ : Open env ways given charset chunks r.message r.wire)
    (body : ∀ call ∈ calls, call.IsBody) (run : calls.foldlM (Response.step env) r = some r')
    (finished : r'.message.finished = true) :
    Closed env ways given charset (chunks.flatten ++ payload calls) r'.message r'.wire := by
  induction calls generalizing r chunks with
  | nil => grind [open_.headed.unfinished]
  | cons call calls ih =>
    obtain ⟨here, others⟩ := forall_mem_cons.mp body
    obtain ⟨middle, stepped, rest⟩ := foldlM_cons_eq_some run
    obtain ⟨message, wire⟩ := Response.step_result stepped
    cases call with
    | assignSocket =>
      refine ih ?_ others rest
      rw [message, wire]
      exact open_.flush
    | writeContinue | setHeader | writeHead => exact here.elim
    | write chunk =>
      rw [Response.result, open_.headed.write_eq] at message wire
      rw [payload]
      by_cases empty : chunk.length = 0
      · rw [body_empty empty] at message wire
        rw [Data.bytes_eq_nil empty, nil_append]
        refine ih ?_ others rest
        simpa [message, wire, OutgoingMessage.sends] using open_
      have next : Open env ways given charset (chunks ++ [chunk.bytes]) middle.message
          middle.wire := by
        rw [message, wire]
        exact open_.write r.lossless_link here empty
      have closed := ih next others rest
      rw [flatten_append, flatten_singleton, append_assoc] at closed
      exact closed
    | end_ data =>
      rw [Response.result, open_.headed.end_eq] at message wire
      have closed : Closed env ways given charset (chunks.flatten ++ endBytes data)
          middle.message middle.wire := by
        rw [message, wire]
        exact open_.ending r.lossless_link here
      exact closed.run others rest

/-- With the header stored, the first call with bytes decides on the charset. -/
theorem Held.run (held : Held env given r.message r.wire) (body : ∀ call ∈ calls, call.IsBody)
    (run : calls.foldlM (Response.step env) r = some r') (finished : r'.message.finished = true) :
    Closed env ways given (waitingCharset calls) (payload calls) r'.message r'.wire := by
  induction calls generalizing r with
  | nil => grind [held.headed.unfinished]
  | cons call calls ih =>
    obtain ⟨here, others⟩ := forall_mem_cons.mp body
    obtain ⟨middle, stepped, rest⟩ := foldlM_cons_eq_some run
    obtain ⟨message, wire⟩ := Response.step_result stepped
    cases call with
    | assignSocket =>
      refine ih ?_ others rest
      rw [message, wire]
      exact held.flush
    | writeContinue | setHeader | writeHead => exact here.elim
    | write chunk =>
      rw [Response.result, held.headed.write_eq] at message wire
      rw [payload, waitingCharset]
      by_cases empty : chunk.length = 0
      · rw [body_empty empty] at message wire
        rw [Data.bytes_eq_nil empty, nil_append, if_pos empty]
        refine ih ?_ others rest
        simpa [message, wire, OutgoingMessage.sends] using held
      have open_ : Open env ways given chunk.charset [chunk.bytes] middle.message
          middle.wire := by
        rw [message, wire]
        exact held.write r.lossless_link here empty
      have closed := open_.run others rest finished
      simpa [empty] using closed
    | end_ data =>
      rw [Response.result, held.headed.end_eq] at message wire
      have closed : Closed env ways given (endCharset data) (endBytes data) middle.message
          middle.wire := by
        rw [message, wire]
        exact held.ending r.lossless_link here
      exact closed.run others rest

end Runs

/-! ## Before the header -/

/-- A response before its header, with the header that it is going to have -/
structure Fresh (env : Environment) (head : ResponseHead) (m : OutgoingMessage)
    (wire : List Piece) :
    Prop where
  unframed : Unframed m
  contentLength : m.contentLength = none
  output : m.output = []
  wire : wire = []
  bodied : noBody head.statusCode = false
  neutral : ∀ field ∈ head.fields env m, Neutral env field

section Fresh

variable {env : Environment} {ways : Piece → Way} {link : Option Link} {head : ResponseHead}
  {m : OutgoingMessage} {wire : List Piece}

theorem Fresh.flush (fresh : Fresh env head m wire) : m.flush.1 = m ∧ wire ++ m.flush.2 = wire := by
  constructor
  · exact congrArg (fun output => { m with output }) fresh.output.symm
  · simp [OutgoingMessage.flush, fresh.output]

theorem wireBytes_text (text : JSString) :
    wireBytes ways [{ data := .string text, encoding := none }] =
      some (Charset.utf8.bytes text) := by
  have utf8 : IsUtf8 none := nofun
  simp [wireBytes, Piece.sent, sent_utf8 utf8, Charset.bytes]

/-- The header is stored, and may have been sent at once. -/
def Begun (env : Environment) (ways : Piece → Way) (given : List JSString) (expected : Bool)
    (m : OutgoingMessage) (wire : List Piece) : Prop :=
  if expected then Open env ways given .utf8 [] m wire else Held env given m wire

theorem Fresh.writeHead (fresh : Fresh env head m wire) (lossless : Lossless link) :
    let result := m.writeHead env link head.statusCode head.reason head.obj
    Begun env ways (head.lines env m) (expects env (head.fields env m)) result.1
      (wire ++ result.2) := by
  obtain ⟨headed, sent⟩ := writeHead_unframed lossless fresh.unframed fresh.bodied fresh.neutral
  rw [fresh.contentLength] at headed
  rw [Begun, ResponseHead.fields, fresh.wire, nil_append]
  cases expected : expects env (m.givenFields env head.obj) with
  | false =>
    rw [expected, if_neg (by decide)] at sent
    obtain ⟨unsent, nothing, output⟩ := sent
    simpa using ⟨headed, unsent, output.trans fresh.output, nothing⟩
  | true =>
    rw [expected, if_pos rfl] at sent
    obtain ⟨sent, produced⟩ := sent
    refine ⟨headed, sent, nofun, ?_⟩
    rw [OutgoingMessage.produced, fresh.output, nil_append] at produced
    simp [produced, wireBytes_text]

theorem withLength_unstored {m : OutgoingMessage} (unstored : m.header = none) {data : Option Data}
    {encoding : Option JSString} (utf8 : ∀ chunk ∈ data, IsChunk chunk encoding) :
    m.withLength data encoding = { m with contentLength := some (endBytes data).length } := by
  have length : ((OutgoingMessage.given data).map (OutgoingMessage.byteLength encoding)).getD 0 =
      (endBytes data).length := by
    obtain ⟨chunk, eq, rfl⟩ | ⟨eq, empty, -⟩ := given_cases data
    · rw [eq, Option.map_some, Option.getD_some, byteLength_chunk (utf8 chunk rfl)]
      rfl
    · simp [eq, empty]
  rw [OutgoingMessage.withLength, length, if_pos]
  rw [unstored]
  rfl

theorem givenFields_nil (m : OutgoingMessage) : m.givenFields env [] =
    if m.headers.isSome then (m.renderHeaders.map fieldLines).getD [] else [] := by
  have none : m.setHeaders env [] = some m := rfl
  rw [givenFields, headersOf, none, Option.bind_some]
  split
  · rw [Option.map_map]
    rfl
  · rfl

theorem implicit_contentLength (env : Environment) (m : OutgoingMessage)
    (contentLength : Option Nat) :
    (ResponseHead.implicit m).fields env { m with contentLength } =
      (ResponseHead.implicit m).fields env m ∧
      (ResponseHead.implicit m).lines env { m with contentLength } =
        (ResponseHead.implicit m).lines env m := by
  have fields : OutgoingMessage.givenFields env [] { m with contentLength } =
      m.givenFields env [] := by
    rw [givenFields_nil, givenFields_nil]
    rfl
  refine ⟨fields, ?_⟩
  have phrase : OutgoingMessage.reasonPhrase (m.statusCode.getD 200) none { m with contentLength } =
      m.reasonPhrase (m.statusCode.getD 200) none := rfl
  simp only [ResponseHead.lines, ResponseHead.implicit, givenLines, fields, phrase]

theorem Fresh.store (fresh : Fresh env (.implicit m) m wire) (lossless : Lossless link) (n : Nat) :
    let stored := OutgoingMessage.ensureHeader (implicitHeader env link)
      { m with contentLength := some n }
    Headed env ((ResponseHead.implicit m).lines env m) (some n) stored.1 ∧
      if expects env ((ResponseHead.implicit m).fields env m) then
        stored.1.headerSent = true ∧ OutgoingMessage.produced stored =
          [{ data := .string stored.1.headerText, encoding := none }]
      else stored.1.headerSent = false ∧ stored.2 = [] ∧ stored.1.output = [] := by
  obtain ⟨fields, lines⟩ := implicit_contentLength env m (some n)
  have unframed : Unframed { m with contentLength := some n } :=
    ⟨fresh.unframed.header, fresh.unframed.headerSent, fresh.unframed.unfinished,
      fresh.unframed.hasBody, fresh.unframed.trailer, fresh.unframed.chunkedEncoding,
      fresh.unframed.byDefault, fresh.unframed.removed⟩
  have neutral := fresh.neutral
  rw [← fields] at neutral
  have stores := @writeHead_unframed env _ link lossless _ (ResponseHead.implicit m).reason _
    unframed fresh.bodied neutral
  have first : OutgoingMessage.ensureHeader (implicitHeader env link)
      { m with contentLength := some n } =
      OutgoingMessage.writeHead env link (ResponseHead.implicit m).statusCode
        (ResponseHead.implicit m).reason (ResponseHead.implicit m).obj
        { m with contentLength := some n } := by
    rw [OutgoingMessage.ensureHeader, if_pos]
    · rfl
    rw [unframed.header]
    rfl
  have lines : givenLines env (ResponseHead.implicit m).statusCode (ResponseHead.implicit m).reason
      (ResponseHead.implicit m).obj { m with contentLength := some n } =
      (ResponseHead.implicit m).lines env m := lines
  have fields : OutgoingMessage.givenFields env (ResponseHead.implicit m).obj
      { m with contentLength := some n } = (ResponseHead.implicit m).fields env m := fields
  rw [first]
  generalize OutgoingMessage.writeHead env link (ResponseHead.implicit m).statusCode
    (ResponseHead.implicit m).reason (ResponseHead.implicit m).obj
      { m with contentLength := some n } = stored at stores
  simp only [lines, fields] at stores
  simp only [fresh.output, nil_append] at stores
  exact stores

theorem Fresh.ending (fresh : Fresh env (.implicit m) m wire) (lossless : Lossless link)
    {data : Option Data} {encoding : Option JSString}
    (utf8 : ∀ chunk ∈ data, IsChunk chunk encoding) :
    let result := m.end_ link (implicitHeader env link) data encoding
    Closed env ways ((ResponseHead.implicit m).lines env m)
      (if expects env ((ResponseHead.implicit m).fields env m) then .utf8 else endCharset data)
      (endBytes data) result.1 (wire ++ result.2) := by
  have measured := withLength_unstored fresh.unframed.header utf8
  obtain ⟨headed, sent⟩ := fresh.store lossless (endBytes data).length
  rw [← measured] at headed sent
  generalize first : (m.withLength data encoding).ensureHeader (implicitHeader env link) = stored
    at headed sent
  obtain ⟨header, eq, isHeader⟩ := headed.header
  have isSome : stored.1.header.isSome := by
    rw [eq]
    rfl
  have text : stored.1.headerText = header := by
    rw [headerText, eq]
    rfl
  simp only [OutgoingMessage.end_eq data encoding fresh.unframed.unfinished
    (by rw [first]; exact isSome) (by rw [first]; exact headed.unfinished), first]
  refine ⟨rfl, some (endBytes data).length, header, endBytes data, ?_, isHeader, ?_,
    readBody_contentLength _⟩
  · rw [sends_eq]
    exact eq
  rw [fresh.wire, nil_append]
  cases expected : expects env ((ResponseHead.implicit m).fields env m) with
  | false =>
    rw [expected, if_neg (by decide)] at sent
    obtain ⟨unsent, nothing, output⟩ := sent
    rw [nothing, nil_append, if_neg (by decide), ← text]
    exact ending_unsent headed unsent output lossless utf8
  | true =>
    rw [expected, if_pos rfl] at sent
    obtain ⟨sent, produced⟩ := sent
    have bytes : wireBytes ways (stored.2 ++ stored.1.output) =
        some (Charset.utf8.bytes stored.1.headerText) := by
      rw [OutgoingMessage.produced] at produced
      rw [produced, wireBytes_text]
    rw [if_pos rfl, ← text, append_assoc]
    exact ending_sent headed sent bytes lossless utf8

end Fresh

section Runs

variable {env : Environment} {ways : Piece → Way} {r r' : Response} {calls : List ResponseCall}

/-- How the header is encoded -/
def headerCharset (env : Environment) (head : ResponseHead) (m : OutgoingMessage)
    (calls : List ResponseCall) :
    Charset :=
  if expects env (head.fields env m) then .utf8 else waitingCharset calls

/-- From the header on, the calls give the body, whether or not the header has been sent. -/
theorem Begun.run {given : List JSString} {expected : Bool}
    (begun : Begun env ways given expected r.message r.wire) (body : ∀ call ∈ calls, call.IsBody)
    (run : calls.foldlM (Response.step env) r = some r') (finished : r'.message.finished = true) :
    Closed env ways given (if expected then .utf8 else waitingCharset calls) (payload calls)
      r'.message r'.wire := by
  cases expected with
  | false =>
    have held : Held env given r.message r.wire := begun
    exact held.run body run finished
  | true =>
    have open_ : Open env ways given .utf8 [] r.message r.wire := begun
    exact open_.run body run finished

theorem step_write_after {chunk : Data} {encoding : Option JSString}
    (unfinished : r.message.finished = false) :
    (r.after (r.message.ensureHeader (implicitHeader env r.link))).step env
      (.write chunk encoding) =
      r.step env (.write chunk encoding) := by
  obtain ⟨stored, finished, -⟩ := ensureHeader_adds r.lossless_link env r.message
  have finished := finished.trans unfinished
  generalize headed : r.message.ensureHeader (implicitHeader env r.link) = result at stored finished
  have again : result.1.ensureHeader (implicitHeader env r.link) = (result.1, []) := by
    rw [ensureHeader, if_neg]
    rw [← Option.not_isSome, stored]
    decide
  have link : (r.after result).link = r.link := rfl
  have message : (r.after result).message = result.1 := rfl
  simp only [Response.step, Response.handed, Response.headed, link, message, again, headed,
    write_eq chunk encoding unfinished, write_eq chunk encoding finished, unfinished, finished]
  simp [Response.after]

/-- Without `writeHead`, the first `write` or `end` stores the header. -/
theorem Fresh.run_implicit (fresh : Fresh env (.implicit r.message) r.message r.wire)
    (body : ∀ call ∈ calls, call.IsBody) (run : calls.foldlM (Response.step env) r = some r')
    (finished : r'.message.finished = true) :
    Closed env ways ((ResponseHead.implicit r.message).lines env r.message)
      (headerCharset env (.implicit r.message) r.message calls) (payload calls)
      r'.message r'.wire := by
  induction calls generalizing r with
  | nil => grind [fresh.unframed.unfinished]
  | cons call calls ih =>
    obtain ⟨here, others⟩ := forall_mem_cons.mp body
    obtain ⟨middle, stepped, rest⟩ := foldlM_cons_eq_some run
    obtain ⟨message, wire⟩ := Response.step_result stepped
    cases call with
    | assignSocket =>
      obtain ⟨sameMessage, sameWire⟩ := fresh.flush
      have message : middle.message = r.message := message.trans sameMessage
      have wire : middle.wire = r.wire := wire.trans sameWire
      have closed := ih (by rw [message, wire]; exact fresh) others rest
      rw [message] at closed
      exact closed
    | writeContinue | setHeader | writeHead => exact here.elim
    | write =>
      have first : r.message.ensureHeader (implicitHeader env r.link) =
          r.message.writeHead env r.link (ResponseHead.implicit r.message).statusCode
            (ResponseHead.implicit r.message).reason (ResponseHead.implicit r.message).obj := by
        rw [OutgoingMessage.ensureHeader, fresh.unframed.header]
        rfl
      have begun : Begun env ways ((ResponseHead.implicit r.message).lines env r.message)
          (expects env ((ResponseHead.implicit r.message).fields env r.message))
          (r.after (r.message.ensureHeader (implicitHeader env r.link))).message
          (r.after (r.message.ensureHeader (implicitHeader env r.link))).wire := by
        rw [first]
        exact fresh.writeHead r.lossless_link
      refine begun.run body ?_ finished
      simpa [step_write_after fresh.unframed.unfinished, stepped] using rest
    | end_ data encoding =>
      have closed : Closed env ways ((ResponseHead.implicit r.message).lines env r.message)
          (headerCharset env (.implicit r.message) r.message (.end_ data encoding :: calls))
          (endBytes data) middle.message middle.wire := by
        rw [message, wire]
        exact fresh.ending r.lossless_link here
      exact closed.run others rest

/-- **A whole response**: the header, and behind it the body that the calls give -/
theorem Fresh.run {head : Option ResponseHead}
    (fresh : Fresh env (head.getD (.implicit r.message)) r.message r.wire)
    (body : ∀ call ∈ calls, call.IsBody)
    (run : (head.toList.map ResponseHead.call ++ calls).foldlM (Response.step env) r = some r')
    (finished : r'.message.finished = true) :
    Closed env ways ((head.getD (.implicit r.message)).lines env r.message)
      (headerCharset env (head.getD (.implicit r.message)) r.message calls) (payload calls)
      r'.message r'.wire := by
  cases head with
  | none => exact fresh.run_implicit body run finished
  | some head =>
    obtain ⟨middle, stepped, rest⟩ := foldlM_cons_eq_some run
    obtain ⟨message, wire⟩ := Response.step_result stepped
    have begun : Begun env ways (head.lines env r.message)
        (expects env (head.fields env r.message)) middle.message middle.wire := by
      rw [message, wire]
      exact fresh.writeHead r.lossless_link
    exact begun.run body rest finished

end Runs

/-! ## What a receiver reads -/

/-- A receiver reads the header that was stored, then these bytes, and nothing is left over. -/
def Response.Decodes (ways : Piece → Way) (charset : Charset) (payload : List UInt8)
    (r : Response) : Prop :=
  ∃ bytes lines, wireBytes ways r.produced = some bytes ∧
    receive bytes = some { lines, body := payload, rest := [] } ∧
    joinLines lines ++ lineEnd = charset.bytes r.message.headerText

/-- These are the lines of a header, and none behind the first announces the length of a body. -/
def Unannouncing (charset : Charset) (lines : List JSString) : Prop :=
  ∃ read, readBlock [] (charset.bytes (textLines lines) ++ lineEnd) = some (read, []) ∧
    ∀ line ∈ read.tail, isFraming line = false

theorem IsTextLine.isLine {charset : Charset} {line : JSString} (text : IsTextLine charset line) :
    IsLine (charset.bytes line) :=
  ⟨(charset.plain_bytes line).mpr text.unbroken, Charset.bytes_ne_nil text.filled⟩

theorem joinLines_ends {lines : List (List UInt8)} (filled : lines ≠ []) :
    ∃ start, joinLines lines = start ++ lineEnd := by
  obtain ⟨init, last, rfl⟩ := eq_nil_or_concat lines |>.resolve_left filled
  exact ⟨joinLines init ++ last, by simp⟩

/-- A complete body is decoded exactly if its header does not announce another. -/
theorem Closed.decodes_iff {env : Environment} {ways : Piece → Way} {r : Response}
    {charset : Charset} {start : JSString} {given : List JSString} {payload : List UInt8}
    (closed : Closed env ways (start :: given) charset payload r.message r.wire) :
    r.Decodes ways charset payload ↔ Unannouncing charset (start :: given) := by
  obtain ⟨length, header, body, eq, ⟨preceding, isPreceding, rfl⟩, bytes, reads⟩ := closed.complete
  obtain ⟨isFraming_, announces⟩ := framingOf_framingLine charset length
  have proper : ∀ line ∈ (preceding ++ [framingLine length]).map charset.bytes, IsLine line := by
    rw [forall_mem_map]
    exact fun line mem => ((isPreceding.automatic length).isTextLine charset line mem).isLine
  have only : ((preceding ++ [framingLine length]).map charset.bytes).filter isFraming =
      [charset.bytes (framingLine length)] := by
    simp [isPreceding.filter_isFraming, isFraming_]
  obtain ⟨first, ends⟩ : ∃ first, joinLines ((start :: given).map charset.bytes) =
    first ++ lineEnd :=
    joinLines_ends (cons_ne_nil _ _)
  have given_ : charset.bytes (textLines (start :: given)) = first ++ lineEnd := by
    have none : charset.bytes [] = [] := by cases charset <;> rfl
    have lines := bytes_textLines charset (start :: given) []
    rw [append_nil, none, append_nil, ends] at lines
    exact lines
  have header : charset.bytes (textLines (start :: given ++ (preceding ++ [framingLine length])) ++
      crlf) = first ++ lineEnd ++
        joinLines ((preceding ++ [framingLine length]).map charset.bytes) ++ lineEnd := by
    rw [bytes_textLines, map_append, joinLines_append, ends, bytes_crlf]
  have iff := @receive_iff _ first body payload [] _ _ proper only announces reads
  rw [Unannouncing, given_, ← iff, Response.Decodes, Response.produced, bytes, header]
  have text : r.message.headerText =
      textLines (start :: given ++ (preceding ++ [framingLine length])) ++ crlf := by
    rw [headerText, eq]
    rfl
  rw [text, header]
  constructor
  · rintro ⟨bytes', lines, same, read, block⟩
    rw [← Option.some.inj same] at read
    exact ⟨lines, read, append_cancel_right block⟩
  rintro ⟨lines, read, block⟩
  exact ⟨_, lines, rfl, read, by rw [block]⟩

/-! ## Before the first call -/

/-- What is set before the header is stored -/
inductive Setting where
  | setHeader (name : JSString) (value : Value)
  | removeHeader (name : JSString)
  | statusCode (code : Nat)
  | statusMessage (text : JSString)
  | sendDate (flag : Bool)

/-- The response after a setting -/
def Setting.apply (env : Environment) (m : OutgoingMessage) : Setting → OutgoingMessage
  | .setHeader name value => (m.setHeader env name value).getD m
  | .removeHeader name => (m.removeHeader env name).getD m
  | .statusCode code => { m with statusCode := some code }
  | .statusMessage text => { m with statusMessage := some text }
  | .sendDate flag => { m with sendDate := flag }

/-- Nothing about the framing is set, and nothing about it is removed. -/
def Setting.IsNeutral (env : Environment) : Setting → Prop
  | .setHeader name _ => Neutral env (name, [])
  | .removeHeader name => env.toLowerCase name ≠ js "connection" ∧
      env.toLowerCase name ≠ js "content-length" ∧ env.toLowerCase name ≠ js "transfer-encoding"
  | _ => True

/-- A response to a request of HTTP/1.1 that is not `HEAD`, with what was set on it -/
def prepared (env : Environment) (shouldKeepAlive expectContinue : Bool) (settings : List Setting) :
    OutgoingMessage :=
  settings.foldl (Setting.apply env) { serverResponse false shouldKeepAlive with expectContinue }

/-- No field that is set has to do with the framing. -/
def NeutralEntries (env : Environment) (entries : List Entry) : Prop :=
  ∀ e ∈ entries, Neutral env (e.name, [])

section Prepared

variable {env : Environment} {m m' : OutgoingMessage}

theorem NeutralEntries.assign {entry : Entry} {entries : List Entry}
    (neutral : NeutralEntries env entries) (named : Neutral env (entry.name, [])) :
    NeutralEntries env (assign entry entries) := by
  rw [OutgoingMessage.assign]
  split
  · exact neutral
  split
  · intro e mem
    obtain ⟨e', mem', rfl⟩ := mem_map.mp mem
    split
    · exact named
    · exact neutral e' mem'
  intro e mem
  obtain rfl | mem := mem_cons.mp ((perm_addProperty entry entries).subset mem)
  · exact named
  · exact neutral e mem

theorem NeutralEntries.setHeader {name : JSString} {value : Value}
    (neutral : NeutralEntries env (m.headers.getD [])) (named : Neutral env (name, []))
    (set : m.setHeader env name value = some m') : NeutralEntries env (m'.headers.getD []) := by
  rw [OutgoingMessage.setHeader] at set
  split at set
  · cases set
  cases set
  exact neutral.assign named

theorem NeutralEntries.setHeaders {obj : List (JSString × Value)}
    (neutral : NeutralEntries env (m.headers.getD []))
    (named : ∀ header ∈ obj, Neutral env (header.1, []))
    (set : m.setHeaders env obj = some m') : NeutralEntries env (m'.headers.getD []) := by
  rw [OutgoingMessage.setHeaders] at set
  have named : ∀ header ∈ obj.filter (·.1 ≠ []), Neutral env (header.1, []) := fun header mem =>
    named header (mem_filter.mp mem).1
  generalize obj.filter (·.1 ≠ []) = obj at named set
  induction obj generalizing m with
  | nil => grind
  | cons header obj ih =>
    obtain ⟨here, others⟩ := forall_mem_cons.mp named
    obtain ⟨middle, first, rest⟩ := Option.bind_eq_some_iff.mp set
    exact ih (neutral.setHeader here first) others rest

theorem NeutralEntries.renderHeaders {headers : List (JSString × Value)}
    (neutral : NeutralEntries env (m.headers.getD [])) (rendered : m.renderHeaders = some headers) :
    ∀ header ∈ headers, Neutral env (header.1, []) := by
  rw [OutgoingMessage.renderHeaders] at rendered
  split at rendered
  · cases rendered
  rw [← Option.some.inj rendered, forall_mem_map]
  have start : NeutralEntries env [] := nofun
  refine foldlRecOn (m.headers.getD []) _ start ?_
  intro entries neutralEntries e given
  exact neutralEntries.assign (neutral e given)

theorem neutral_givenFields {obj : List (JSString × Value)}
    (neutral : NeutralEntries env (m.headers.getD []))
    (named : ∀ header ∈ obj, Neutral env (header.1, [])) :
    ∀ field ∈ m.givenFields env obj, Neutral env field := by
  have lines (headers : List (JSString × Value))
      (named : ∀ header ∈ headers, Neutral env (header.1, [])) :
      ∀ field ∈ fieldLines headers, Neutral env field := by
    intro field mem
    obtain ⟨header, given, line⟩ := mem_flatMap.mp mem
    obtain ⟨text, -, rfl⟩ := mem_map.mp line
    exact named header given
  rw [givenFields]
  cases found : m.headersOf env obj with
  | none => exact fun _ mem => absurd mem not_mem_nil
  | some r =>
    refine lines r.2 ?_
    rw [headersOf] at found
    split at found
    · obtain ⟨m', set, rendered⟩ := Option.bind_eq_some_iff.mp found
      obtain ⟨headers, all, rfl⟩ := Option.map_eq_some_iff.mp rendered
      exact (neutral.setHeaders named set).renderHeaders all
    · grind

/-- What the settings leave as it was -/
structure Unset (env : Environment) (m : OutgoingMessage) : Prop where
  unframed : Unframed m
  contentLength : m.contentLength = none
  output : m.output = []
  entries : NeutralEntries env (m.headers.getD [])

theorem Unset.apply (unset : Unset env m) {setting : Setting} (neutral : setting.IsNeutral env) :
    Unset env (setting.apply env m) := by
  obtain ⟨⟨header, headerSent, unfinished, hasBody, trailer, chunked, byDefault, removed⟩,
    contentLength, output, entries⟩ := unset
  have unstored : ¬m.header.isSome = true := by
    rw [header]
    decide
  cases setting with
  | setHeader name value =>
    rw [Setting.apply]
    cases set : m.setHeader env name value with
    | none =>
      rw [OutgoingMessage.setHeader, if_neg unstored] at set
      cases set
    | some m' =>
      have entries' := entries.setHeader neutral set
      rw [OutgoingMessage.setHeader, if_neg unstored] at set
      cases set
      refine ⟨⟨header, headerSent, unfinished, hasBody, trailer, chunked, byDefault, ?_⟩,
        contentLength, output, entries'⟩
      simp [removed]
  | removeHeader name =>
    obtain ⟨connection, length, encoding⟩ := neutral
    rw [Setting.apply, OutgoingMessage.removeHeader, if_neg unstored, Option.getD_some]
    refine ⟨⟨header, headerSent, unfinished, hasBody, trailer, chunked, byDefault, ?_⟩,
      contentLength, output, ?_⟩
    · simp [removed, connection, length, encoding]
    intro e mem
    cases set : m.headers with
    | none => grind [set]
    | some old =>
      rw [set] at mem entries
      exact entries e (mem_filter.mp mem).1
  | statusCode | statusMessage | sendDate =>
    exact ⟨⟨header, headerSent, unfinished, hasBody, trailer, chunked, byDefault, removed⟩,
      contentLength, output, entries⟩

theorem unset_prepared {shouldKeepAlive expectContinue : Bool} {settings : List Setting}
    (neutral : ∀ setting ∈ settings, setting.IsNeutral env) :
    Unset env (prepared env shouldKeepAlive expectContinue settings) := by
  have start : Unset env { serverResponse false shouldKeepAlive with expectContinue } :=
    ⟨⟨rfl, rfl, rfl, rfl, rfl, rfl, rfl, rfl⟩, rfl, rfl, nofun⟩
  exact foldlRecOn settings (Setting.apply env) start fun m unset setting mem =>
    unset.apply (neutral setting mem)

end Prepared

namespace Response

/-- The response that is prepared, with the socket or without it -/
def ready (env : Environment) (shouldKeepAlive expectContinue : Bool) (socket : Assignment)
    (settings : List Setting) : Response :=
  { Response.new false shouldKeepAlive expectContinue with
    message := prepared env shouldKeepAlive expectContinue settings
    socket }

/-- **When a receiver reads the chunks of a finished response**, by what its header announces and to
the last byte: for all that is set before, for all calls, and wherever among them the socket
comes. -/
theorem body_decodes_iff {env : Environment} {shouldKeepAlive expectContinue : Bool}
    {socket : Assignment} {settings : List Setting} {head : Option ResponseHead}
    {calls : List ResponseCall}
    {r : Response} (set : ∀ setting ∈ settings, setting.IsNeutral env)
    (passed : ∀ given ∈ head, ∀ header ∈ given.obj, Neutral env (header.1, []))
    (bodied : noBody (head.getD (.implicit
      (prepared env shouldKeepAlive expectContinue settings))).statusCode = false)
    (body : ∀ call ∈ calls, call.IsBody)
    (run : (head.toList.map ResponseHead.call ++ calls).foldlM (step env)
      (ready env shouldKeepAlive expectContinue socket settings) = some r)
    (finished : r.message.finished = true) (ways : Piece → Way) :
    let m := prepared env shouldKeepAlive expectContinue settings
    let charset := headerCharset env (head.getD (.implicit m)) m calls
    r.Decodes ways charset (payload calls) ↔
      Unannouncing charset ((head.getD (.implicit m)).lines env m) := by
  obtain ⟨unframed, contentLength, output, entries⟩ :
      Unset env (prepared env shouldKeepAlive expectContinue settings) := unset_prepared set
  have named : ∀ header ∈ (head.getD (.implicit
      (prepared env shouldKeepAlive expectContinue settings))).obj, Neutral env (header.1, []) := by
    cases head with
    | none => exact nofun
    | some given => exact passed given rfl
  have fresh : Fresh env (head.getD (.implicit
      (prepared env shouldKeepAlive expectContinue settings)))
      (ready env shouldKeepAlive expectContinue socket settings).message
      (ready env shouldKeepAlive expectContinue socket settings).wire :=
    ⟨unframed, contentLength, output, rfl, bodied, neutral_givenFields entries named⟩
  exact (fresh.run body run finished).decodes_iff

/-- A string that is not ASCII, an empty Buffer, the socket, a Buffer, and a string at the end -/
theorem body_decodes_chunked : ∃ r, foldlM (step .ascii)
      (ready .ascii true false .waiting [.setHeader (js "A") (.one (js "b")), .statusCode 201])
      [.write (.string [0xE9]) none, .write (.buffer []) none, .assignSocket,
        .write (.buffer [1, 2]) none, .end_ (some (.string (js "x"))) none] = some r ∧
    (r.message.finished = true ∧ r.socket = .detached) ∧
    r.Decodes (fun _ => .write) .utf8 [0xC3, 0xA9, 1, 2, 0x78] := by
  have done : (foldlM (step .ascii)
      (ready .ascii true false .waiting [.setHeader (js "A") (.one (js "b")), .statusCode 201])
      [.write (.string [0xE9]) none, .write (.buffer []) none, .assignSocket,
        .write (.buffer [1, 2]) none, .end_ (some (.string (js "x"))) none]).any
      (fun r => decide (r.message.finished = true ∧ r.socket = .detached)) = true := by
    decide +kernel
  obtain ⟨r, run, holds⟩ := (Option.any_eq_true _ _).mp done
  obtain ⟨finished, gone⟩ := of_decide_eq_true holds
  refine ⟨r, run, ⟨finished, gone⟩, ?_⟩
  have field : Neutral .ascii (js "A", []) := by decide
  have set : ∀ setting ∈ [Setting.setHeader (js "A") (.one (js "b")), .statusCode 201],
      setting.IsNeutral .ascii := by
    rw [forall_mem_cons, forall_mem_singleton]
    exact ⟨field, trivial⟩
  have chunk (data : Data) : IsChunk data none := nofun
  have body : ∀ call ∈ [ResponseCall.write (.string [0xE9]) none, .write (.buffer []) none,
    .assignSocket,
      .write (.buffer [1, 2]) none, .end_ (some (.string (js "x"))) none], call.IsBody := by
    simp only [forall_mem_cons, ResponseCall.IsBody]
    exact ⟨chunk _, chunk _, trivial, chunk _, fun data _ => chunk data,
      nofun⟩
  have passed : ∀ given ∈ (none : Option ResponseHead), ∀ header ∈ given.obj,
      Neutral .ascii (header.1, []) := nofun
  refine (body_decodes_iff set passed (by decide) body run finished fun _ => .write).mpr ?_
  exact ⟨[ascii "HTTP/1.1 201 Created", ascii "A: b"], by decide +kernel, by decide⟩

/-- The name of a field that contains the end of the header -/
theorem body_misread : ∃ r, foldlM (step .ascii)
      (ready .ascii true false .assigned
        [.setHeader (js "Content-Length: 0" ++ crlf ++ crlf ++ js "A") (.one (js "b"))])
      [.write (.string (js "x")) none, .end_ none none] = some r ∧
    r.message.finished = true ∧
    Setting.IsNeutral .ascii
      (.setHeader (js "Content-Length: 0" ++ crlf ++ crlf ++ js "A") (.one (js "b"))) ∧
    ¬r.Decodes (fun _ => .write) .utf8
      (payload [.write (.string (js "x")) none, .end_ none none]) := by
  have done : (foldlM (step .ascii)
      (ready .ascii true false .assigned
        [.setHeader (js "Content-Length: 0" ++ crlf ++ crlf ++ js "A") (.one (js "b"))])
      [.write (.string (js "x")) none, .end_ none none]).any
      (fun r => decide (r.message.finished = true ∧
        ((wireBytes (fun _ => .write) r.produced).bind fun bytes =>
          (receive bytes).map (·.body)) = some [])) = true := by
    decide +kernel
  obtain ⟨r, run, holds⟩ := (Option.any_eq_true _ _).mp done
  obtain ⟨finished, empty⟩ := of_decide_eq_true holds
  have neutral : Neutral .ascii (js "Content-Length: 0" ++ crlf ++ crlf ++ js "A", []) := by decide
  refine ⟨r, run, finished, neutral, ?_⟩
  rintro ⟨bytes, lines, sent, read, -⟩
  rw [sent, Option.bind_some, read] at empty
  cases empty

end Response

end IoJs.Http
