import IoJs.Http.HeaderBlock
import IoJs.Library.Runs

/-!
# Interim responses, header, body

A `ServerResponse` and the calls on it. Until it is given the socket, what it sends waits in
`output`. What it produces is meant to be the interim responses, then one header, then the body.
-/

namespace IoJs.Http

open IoJs.Stream IoJs.RegExp IoJs.Library OutgoingMessage List Option

/-- Is the socket still to come, there, or gone? -/
inductive Assignment where
  | waiting
  | assigned
  | detached
  deriving DecidableEq

/-- A response, and what it has written -/
structure Response where
  message : OutgoingMessage
  socket : Assignment
  wire : List Piece
  /-- how often `writeContinue` was called -/
  interims : Nat
  /-- what `write` and `end` have handed on, without the header -/
  body : List Piece

/-- The calls, those of the server included -/
inductive ResponseCall where
  | assignSocket
  | writeContinue
  | setHeader (name : JSString) (value : Value)
  | writeHead (statusCode : Nat) (reason : Option JSString) (obj : List (JSString × Value))
  | write (chunk : Data) (encoding : Option JSString)
  | end_ (data : Option Data) (encoding : Option JSString)

namespace Response

/-- A new response, to a request that may expect an interim response -/
def new (isHead shouldKeepAlive expectContinue : Bool) : Response :=
  { message := { serverResponse isHead shouldKeepAlive with expectContinue }
    socket := .waiting
    wire := []
    interims := 0
    body := [] }

/-- The connection of the response -/
def link (r : Response) : Option Link :=
  if r.socket = .assigned then some { own := true, writable := true, destroyed := false } else none

theorem lossless_link (r : Response) : Lossless r.link := by
  rw [link]
  split
  · intro l mem
    rw [← some.inj mem]
  · exact Lossless.none

/-- The message after a call, and what the call has written -/
def after (result : OutgoingMessage × List Piece) (r : Response) : Response :=
  { r with message := result.1, wire := r.wire ++ result.2 }

/-- `resOnFinish`: a response that has the socket, and everything on it, gives it back. -/
def finish (r : Response) : Response :=
  if r.message.finished ∧ r.socket = .assigned ∧ r.message.output = [] then
    { r with socket := .detached }
  else r

/-- The message when `write` hands its chunk on: it has a header. -/
def headed (env : Environment) (r : Response) : OutgoingMessage :=
  (r.message.ensureHeader (implicitHeader env r.link)).1

/-- The message when `end` hands its chunk on -/
def headedToEnd (env : Environment) (data : Option Data) (encoding : Option JSString)
    (r : Response) : OutgoingMessage :=
  ((r.message.withLength data encoding).ensureHeader (implicitHeader env r.link)).1

/-- What a call hands on as the body -/
def handed (env : Environment) (r : Response) : ResponseCall → List Piece
  | .write chunk encoding =>
    if r.message.finished then [] else (r.headed env).body chunk encoding
  | .end_ data encoding =>
    if r.message.finished then [] else (r.headedToEnd env data encoding).ending data encoding
  | _ => []

/-- One call. The socket is assigned once. -/
def step (env : Environment) (r : Response) (call : ResponseCall) : Option Response :=
  let m := r.message
  let body := r.body ++ r.handed env call
  match call with
  | .assignSocket =>
    if r.socket = .waiting then some (({ r with socket := .assigned }.after m.flush).finish)
      else none
  | .writeContinue => some { r.after (m.writeContinue r.link) with interims := r.interims + 1 }
  | .setHeader name value => some { r with message := (m.setHeader env name value).getD m }
  | .writeHead statusCode reason obj =>
    some (r.after (m.writeHead env r.link statusCode reason obj))
  | .write chunk encoding =>
    some { r.after (m.write r.link (implicitHeader env r.link) chunk encoding) with body }
  | .end_ data encoding =>
    some ({ r.after (m.end_ r.link (implicitHeader env r.link) data encoding) with body }.finish)

/-- What a response has produced -/
def produced (r : Response) : List Piece := r.wire ++ r.message.output

/-- **The order**: interim responses, one header, the body. -/
def InOrder (r : Response) : Prop :=
  content r.produced = (List.replicate r.interims (symbols continueText)).flatten ++
      if r.message.headerSent then symbols r.message.headerText ++ content r.body else []

instance : DecidablePred InOrder := fun _ => instDecidableEqList _ _

/-- The calls that keep the order -/
def allowed (env : Environment) (r : Response) : ResponseCall → Bool
  | .writeContinue => !r.message.headerSent
  | .writeHead _ _ _ => !r.message.headerSent || r.message.headers.isSome
  | .write chunk encoding =>
    r.message.finished || (r.headed env).Fits (r.handed env (.write chunk encoding))
  | .end_ data encoding =>
    r.message.finished ||
      (r.headedToEnd env data encoding).Fits (r.handed env (.end_ data encoding))
  | _ => true

/-! ## The order is kept -/

/-- The order, with what it rests on -/
structure Ordered (r : Response) : Prop where
  inOrder : r.InOrder
  unsent : r.message.headerSent = false → r.body = []
  stored : r.message.headerSent = true → r.message.header.isSome
  finished : r.message.finished = true → r.message.headerSent = true

variable {r : Response} {env : Environment} {r' : Response}

theorem Ordered.new (isHead shouldKeepAlive expectContinue : Bool) :
    Ordered (Response.new isHead shouldKeepAlive expectContinue) where
  inOrder := rfl
  unsent _ := rfl
  stored sent := absurd sent (by simp [Response.new, serverResponse, OutgoingMessage.new])
  finished done := absurd done (by simp [Response.new, serverResponse, OutgoingMessage.new])

theorem content_after (result : OutgoingMessage × List Piece) (r : Response) :
    content (r.after result).produced =
      content r.wire ++ content (OutgoingMessage.produced result) := by
  simp [produced, after, OutgoingMessage.produced, content_append]

section

variable (ordered : r.Ordered)
include ordered

theorem Ordered.interims_only (unsent : r.message.headerSent = false) :
    content r.wire ++ content r.message.output =
      (List.replicate r.interims (symbols continueText)).flatten := by
  have order := ordered.inOrder
  rw [InOrder, produced, content_append, unsent, if_neg (by decide), append_nil] at order
  exact order

theorem Ordered.store (unsent : r.message.headerSent = false)
    {result : OutgoingMessage × List Piece}
    (adds : content (OutgoingMessage.produced result) =
      content r.message.output ++ result.1.sentHeader)
    (stored : result.1.header.isSome) (finished : result.1.finished = r.message.finished) :
    (r.after result).Ordered := by
  have empty := ordered.unsent unsent
  refine ⟨?_, fun _ => empty, fun _ => stored, ?_⟩
  · rw [InOrder, content_after, adds, ← append_assoc, ordered.interims_only unsent, sentHeader]
    simp [after, empty, content_nil]
  intro done
  have done : result.1.finished = true := done
  rw [finished] at done
  simp [ordered.finished done] at unsent

theorem Ordered.ensureHeader :
    (r.after (r.message.ensureHeader (implicitHeader env r.link))).Ordered := by
  obtain ⟨stored, finished, ⟨-, same⟩ | ⟨unstored, adds⟩⟩ :=
    ensureHeader_adds r.lossless_link env r.message
  · simpa [same, after] using ordered
  have unsent : r.message.headerSent = false := by
    cases sent : r.message.headerSent with
    | false => rfl
    | true =>
      have some := ordered.stored sent
      simp [unstored] at some
  exact ordered.store unsent adds stored finished

theorem Ordered.sends (stored : r.message.header.isSome)
    {pieces : List Piece} (fits : r.message.Fits pieces) :
    Ordered { r.after (r.message.sends r.link pieces) with body := r.body ++ pieces } := by
  by_cases none : pieces = []
  · subst none
    simpa [OutgoingMessage.sends, after] using ordered
  have sent : (r.message.sends r.link pieces).1.headerSent = true := sends_headerSent none
  have header : (r.message.sends r.link pieces).1.header = r.message.header := by rw [sends_eq]
  have text : (r.message.sends r.link pieces).1.headerText = r.message.headerText := by
    rw [headerText, header]
    rfl
  refine ⟨?_, ?_, ?_, ?_⟩
  · have after := r.content_after (r.message.sends r.link pieces)
    rw [content_sends r.lossless_link none fits] at after
    have order := ordered.inOrder
    rw [InOrder, produced, content_append] at order
    change content (r.after (r.message.sends r.link pieces)).produced =
      (List.replicate r.interims (symbols continueText)).flatten ++
        if (r.message.sends r.link pieces).1.headerSent then
          symbols (r.message.sends r.link pieces).1.headerText ++ content (r.body ++ pieces) else []
    rw [after, ← append_assoc, order, sent, if_pos rfl, text, content_append, unsentHeader]
    cases earlier : r.message.headerSent with
    | true => simp
    | false => simp [ordered.unsent earlier]
  · intro unsent
    have unsent : (r.message.sends r.link pieces).1.headerSent = false := unsent
    simp [sent] at unsent
  · intro _
    have same : (r.message.sends r.link pieces).1.header.isSome = true := by rw [header, stored]
    exact same
  intro _
  exact sent

theorem Ordered.congr
    (produced : content r'.produced = content r.produced) (interims : r'.interims = r.interims)
    (body : r'.body = r.body) (sent : r'.message.headerSent = r.message.headerSent)
    (header : r'.message.header = r.message.header)
    (finished : r'.message.finished = r.message.finished) : r'.Ordered where
  inOrder := by
    have order := ordered.inOrder
    rw [InOrder, headerText] at order ⊢
    rw [produced, interims, body, sent, header]
    exact order
  unsent := by
    rw [sent, body]
    exact ordered.unsent
  stored := by
    rw [sent, header]
    exact ordered.stored
  finished := by
    rw [sent, finished]
    exact ordered.finished

theorem Ordered.finish : r.finish.Ordered := by
  rw [Response.finish]
  split
  · exact ordered.congr rfl rfl rfl rfl rfl rfl
  · exact ordered

theorem Ordered.assignSocket :
    (({ r with socket := .assigned } : Response).after r.message.flush).Ordered := by
  refine ordered.congr ?_ rfl rfl rfl rfl rfl
  simp [produced, after, OutgoingMessage.flush]

theorem Ordered.writeContinue (unsent : r.message.headerSent = false) :
    Ordered { r.after (r.message.writeContinue r.link) with interims := r.interims + 1 } := by
  have raw : content (OutgoingMessage.produced (r.message.writeContinue r.link)) =
      content r.message.output ++ symbols continueText := by
    have written : OutgoingMessage.produced (r.message.writeRaw r.link
        { data := .string continueText, encoding := some (js "ascii") }) =
        r.message.output ++ Piece.filled
          { data := .string continueText, encoding := some (js "ascii") } :=
      produced_writeRaw r.lossless_link
    have same : OutgoingMessage.produced (r.message.writeContinue r.link) =
        OutgoingMessage.produced (r.message.writeRaw r.link
          { data := .string continueText, encoding := some (js "ascii") }) := rfl
    rw [same, written, content_append, content_filled]
    rfl
  have message : (r.message.writeContinue r.link).1 = { r.message with
        output := (r.message.writeContinue r.link).1.output
        sent100 := true } := by
    have parts : (r.message.writeContinue r.link).1 = { (r.message.writeRaw r.link
            { data := .string continueText, encoding := some (js "ascii") }).1 with
          sent100 := true } := rfl
    rw [parts]
    conv_lhs => rw [writeRaw_eq]
  have sent : (r.message.writeContinue r.link).1.headerSent = false := by
    rw [message]
    exact unsent
  have body := ordered.unsent unsent
  refine ⟨?_, fun _ => body, ?_, ?_⟩
  · have after := r.content_after (r.message.writeContinue r.link)
    change content (r.after (r.message.writeContinue r.link)).produced =
      (List.replicate (r.interims + 1) (symbols continueText)).flatten ++
        if (r.message.writeContinue r.link).1.headerSent then _ else []
    rw [after, raw, ← append_assoc, ordered.interims_only unsent, sent, if_neg (by decide),
      append_nil, replicate_succ', flatten_append, flatten_singleton]
  · intro nowSent
    have nowSent : (r.message.writeContinue r.link).1.headerSent = true := nowSent
    simp [sent] at nowSent
  intro done
  have done : (r.message.writeContinue r.link).1.finished = true := done
  rw [message] at done
  simp [ordered.finished done] at unsent

theorem Ordered.setHeader (name : JSString) (value : Value) :
    Ordered { r with message := (r.message.setHeader env name value).getD r.message } := by
  rw [OutgoingMessage.setHeader]
  split
  · exact ordered
  · exact ordered.congr rfl rfl rfl rfl rfl rfl

theorem Ordered.writeHead (statusCode : Nat) (reason : Option JSString)
    (obj : List (JSString × Value))
    (permitted : r.message.headerSent = false ∨ r.message.headers.isSome) :
    (r.after (r.message.writeHead env r.link statusCode reason obj)).Ordered := by
  obtain ⟨-, -, thrown⟩ | ⟨possible, -⟩ :=
    r.message.writeHead_cases env r.link statusCode reason obj
  · rw [thrown]
    refine ordered.congr ?_ rfl rfl rfl rfl rfl
    simp [produced, after, withStatus]
  have unsent : r.message.headerSent = false := by
    cases sent : r.message.headerSent with
    | false => rfl
    | true =>
      -- then there is a header, and `writeHead` throws
      have stored := ordered.stored sent
      obtain none | none := possible
      · simp [none] at stored
      · grind
  have stores := writeHead_stores r.lossless_link env statusCode reason obj possible
  exact ordered.store unsent stores.1 stores.2.1 stores.2.2

theorem Ordered.write (chunk : Data) (encoding : Option JSString)
    (fits : r.message.finished = true ∨
      (r.headed env).Fits (r.handed env (.write chunk encoding))) :
    Ordered { r.after (r.message.write r.link (implicitHeader env r.link) chunk encoding) with
      body := r.body ++ r.handed env (.write chunk encoding) } := by
  cases finished : r.message.finished with
  | true =>
    rw [OutgoingMessage.write, if_pos finished, handed, if_pos finished, append_nil]
    refine ordered.congr ?_ rfl rfl rfl rfl rfl
    simp [produced, after]
  | false =>
    have fits : (r.headed env).Fits (r.handed env (.write chunk encoding)) := by grind
    obtain ⟨stored, -⟩ := ensureHeader_adds r.lossless_link env r.message
    rw [handed, if_neg (by rw [finished]; decide)] at fits ⊢
    have headed : (r.after (r.message.ensureHeader (implicitHeader env r.link))).Ordered :=
      ordered.ensureHeader
    rw [write_eq chunk encoding finished]
    refine (headed.sends stored fits).congr ?_ rfl rfl rfl rfl rfl
    simp only [produced, after, append_assoc]
    rfl

theorem Ordered.done (sent : r.message.headerSent = true) :
    Ordered { r with message := { r.message with finished := true } } where
  inOrder := ordered.inOrder
  unsent := ordered.unsent
  stored := ordered.stored
  finished _ := sent

theorem Ordered.end_ (data : Option Data) (encoding : Option JSString)
    (fits : r.message.finished = true ∨
      (r.headedToEnd env data encoding).Fits (r.handed env (.end_ data encoding))) :
    Ordered { r.after (r.message.end_ r.link (implicitHeader env r.link) data encoding) with
      body := r.body ++ r.handed env (.end_ data encoding) } := by
  cases finished : r.message.finished with
  | true =>
    rw [OutgoingMessage.end_, if_pos finished, handed, if_pos finished, append_nil]
    refine ordered.congr ?_ rfl rfl rfl rfl rfl
    simp only [produced, after, append_nil]
  | false =>
    have fits : (r.headedToEnd env data encoding).Fits (r.handed env (.end_ data encoding)) := by
      rw [finished] at fits
      simpa using fits
    have measured : Ordered { r with message := r.message.withLength data encoding } := by
      rw [withLength]
      split
      · exact ordered.congr rfl rfl rfl rfl rfl rfl
      · exact ordered
    have unfinished : (r.message.withLength data encoding).finished = false := by grind [withLength]
    obtain ⟨stored, same, -⟩ :=
      ensureHeader_adds r.lossless_link env (r.message.withLength data encoding)
    have headed : Ordered ({ r with message := r.message.withLength data encoding }.after
        ((r.message.withLength data encoding).ensureHeader (implicitHeader env r.link))) :=
      measured.ensureHeader
    rw [handed, if_neg (by rw [finished]; decide)] at fits ⊢
    rw [end_eq data encoding finished stored (same.trans unfinished)]
    refine ((headed.sends stored fits).done ?_).congr ?_ rfl rfl rfl rfl rfl
    · exact sends_headerSent (by simp [ending])
    simp only [produced, after, append_assoc]
    rfl

/-- One permitted call keeps the order of interim responses, header and body. -/
theorem Ordered.step {call : ResponseCall}
    (permitted : r.allowed env call = true) (stepped : r.step env call = some r') : r'.Ordered := by
  cases call with
  | assignSocket =>
    simp only [Response.step] at stepped
    split at stepped
    · cases stepped
      exact ordered.assignSocket.finish
    · cases stepped
  | writeContinue =>
    cases stepped
    exact ordered.writeContinue (by simpa [allowed] using permitted)
  | setHeader name value =>
    cases stepped
    exact ordered.setHeader name value
  | writeHead statusCode reason obj =>
    cases stepped
    exact ordered.writeHead statusCode reason obj (by simpa [allowed] using permitted)
  | write chunk encoding =>
    cases stepped
    exact ordered.write chunk encoding (by simpa [allowed] using permitted)
  | end_ data encoding =>
    cases stepped
    exact (ordered.end_ data encoding (by simpa [allowed] using permitted)).finish

end

/-- **A response produces its interim responses, then its header once, then its body**, in every
run of calls that are allowed; when it is finished, the header has been sent. -/
theorem header_after_interims {isHead shouldKeepAlive expectContinue : Bool}
    (run : Run (step env) (fun r call => r.allowed env call = true)
      (Response.new isHead shouldKeepAlive expectContinue) r) :
    r.InOrder ∧ (r.message.finished = true → r.message.headerSent = true) := by
  have ordered : r.Ordered :=
    Run.invariant Ordered (Ordered.new isHead shouldKeepAlive expectContinue)
      (fun ordered permitted stepped => ordered.step permitted stepped) run
  exact ⟨ordered.inOrder, ordered.finished⟩

/-- Two interim responses that wait for the socket, then a chunk of bytes in chunked coding -/
theorem header_after_interims_chunked :
    ∃ r, Run (step .ascii) (fun r call => r.allowed .ascii call = true)
        (Response.new false true true) r ∧
      (r.interims = 2 ∧ r.message.finished = true ∧ r.socket = .detached) ∧
      r.InOrder ∧ (r.message.finished = true → r.message.headerSent = true) := by
  obtain ⟨r, run, reached⟩ := Run.exists_of_exec (step .ascii)
    (fun r call => r.allowed .ascii call = true) (Response.new false true true)
    (fun r => r.interims = 2 ∧ r.message.finished = true ∧ r.socket = .detached)
    [.writeContinue, .writeContinue, .setHeader (js "A") (.one (js "b")),
      .write (.buffer [1, 2]) none, .assignSocket, .end_ none none]
    (by decide +kernel)
  exact ⟨r, run, reached, header_after_interims run⟩

/-- The header before an interim response that was issued earlier; a second header in the middle of
the body; an interim response in the middle of the body -/
theorem header_out_of_order :
    (∃ r, Run (step .ascii) (fun _ _ => True) (Response.new false true true) r ∧ ¬r.InOrder ∧
      r.produced.map (·.data) =
        [.string r.message.headerText, .string continueText, .buffer [1, 2]]) ∧
    (∃ r, Run (step .ascii) (fun _ _ => True) (Response.new false true false) r ∧ ¬r.InOrder ∧
      r.produced.map (·.data) = [.string (r.message.headerText ++ js "1" ++ crlf ++ js "a" ++ crlf),
          .string (r.message.headerText ++ js "0" ++ crlf ++ crlf)]) ∧
    (∃ r, Run (step .ascii) (fun _ _ => True) (Response.new false true true) r ∧ ¬r.InOrder ∧
      r.produced.map (·.data) = [.string (r.message.headerText ++ js "1" ++ crlf ++ js "a" ++ crlf),
          .string continueText]) := by
  refine ⟨?_, ?_, ?_⟩
  · exact Run.exists_of_exec _ _ _ _ [.writeContinue, .end_ (some (.buffer [1, 2])) none]
      (by decide +kernel)
  · exact Run.exists_of_exec _ _ _ _
      [.assignSocket, .writeHead 200 none [], .write (.string (js "a")) none,
        .writeHead 200 none [], .end_ none none] (by decide +kernel)
  exact Run.exists_of_exec _ _ _ _
    [.assignSocket, .write (.string (js "a")) none, .writeContinue] (by decide +kernel)

end Response

end IoJs.Http
