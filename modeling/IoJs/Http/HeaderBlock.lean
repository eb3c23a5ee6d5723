import IoJs.Http.Sending

/-!
# The header block

A stored header is a sequence of lines: the first line, a line for each value of each field, the
fields that the message adds by itself, and an empty line. Only the values go through `sanitize`.
A receiver that reads the block line by line finds these lines and no others exactly when nothing
else that was passed in is sent with a line break in it, or starts a line with a blank.
-/

namespace IoJs.Http

open IoJs.Stream IoJs.RegExp IoJs.Buffer IoJs.Library List Option

/-! ## Lines of text -/

/-- Some lines of text -/
def textLines (lines : List JSString) : JSString := lines.flatMap (· ++ crlf)

@[simp] theorem textLines_nil : textLines [] = [] := rfl

@[simp] theorem textLines_cons (line : JSString) (lines : List JSString) :
    textLines (line :: lines) = line ++ crlf ++ textLines lines := flatMap_cons

@[simp] theorem textLines_append (left right : List JSString) :
    textLines (left ++ right) = textLines left ++ textLines right := flatMap_append

section

variable (charset : Charset)

theorem bytes_crlf : charset.bytes crlf = lineEnd := by
  cases charset <;> rfl

theorem bytes_append_crlf (line rest : JSString) :
    charset.bytes (line ++ crlf ++ rest) = charset.bytes line ++ lineEnd ++ charset.bytes rest := by
  have feed : ∀ unit ∈ (line ++ crlf).getLast?, isLead unit = false := by
    intro unit last
    obtain rfl : 0x0A = unit := by simpa [crlf] using last
    rfl
  have back : ∀ unit ∈ crlf.head?, isTrail unit = false := by
    intro unit first
    obtain rfl : 0x0D = unit := by simpa [crlf] using first
    rfl
  rw [Charset.bytes_append_of_last feed, Charset.bytes_append_of_head back, bytes_crlf]

theorem bytes_textLines (lines : List JSString) (rest : JSString) :
    charset.bytes (textLines lines ++ rest) =
      joinLines (lines.map charset.bytes) ++ charset.bytes rest := by
  induction lines with
  | nil => rfl
  | cons line lines ih =>
    rw [textLines_cons, append_assoc, bytes_append_crlf, ih, map_cons, joinLines_cons]
    simp

end

/-! ## What is stored -/

namespace OutgoingMessage

def fieldLine (field : JSString × JSString) : JSString :=
  field.1 ++ js ": " ++ sanitize false field.2

/-- The start of `_storeHeader` -/
def HeaderState.start (firstLine : JSString) : HeaderState :=
  { sentConnectionHeader := false
    sentContentLengthHeader := false
    sentTransferEncodingHeader := false
    sentDateHeader := false
    sentExpect := false
    sentTrailer := false
    messageHeader := firstLine }

theorem storeHeader_messageHeader (env : Environment) (field value : JSString)
    (r : OutgoingMessage × HeaderState) :
    (storeHeader env field value r).2.messageHeader =
      r.2.messageHeader ++ textLines [fieldLine (field, value)] := by
  simp only [storeHeader]
  repeat' split
  all_goals simp [fieldLine]

theorem storeFields_messageHeader (env : Environment) (headers : List (JSString × Value))
    (r : OutgoingMessage × HeaderState) :
    (storeFields env headers r).2.messageHeader =
      r.2.messageHeader ++ textLines ((fieldLines headers).map fieldLine) := by
  rw [storeFields]
  induction fieldLines headers generalizing r with
  | nil => simp
  | cons field fields ih => simp [ih, storeHeader_messageHeader, textLines_cons]

/-- The line that `storeDate` adds -/
def dateLines (env : Environment) (r : OutgoingMessage × HeaderState) : List JSString :=
  if r.1.sendDate ∧ r.2.sentDateHeader = false then [js "Date: " ++ env.utcDate] else []

/-- The line that `storeConnection` adds -/
def connectionLines (r : OutgoingMessage × HeaderState) : List JSString :=
  if r.1.removedHeader.connection then []
  else if r.2.sentConnectionHeader = false then
    if r.1.shouldKeepAlive ∧
        (r.2.sentContentLengthHeader ∨ r.1.useChunkedEncodingByDefault ∨ r.1.agent) then
      [js "Connection: keep-alive"]
    else [js "Connection: close"]
  else []

/-- The line that `storeFraming` adds -/
def framingLines (r : OutgoingMessage × HeaderState) : List JSString :=
  if r.2.sentContentLengthHeader = false ∧ r.2.sentTransferEncodingHeader = false ∧
      r.1.hasBody ∧ r.1.useChunkedEncodingByDefault then
    match r.1.contentLength, r.2.sentTrailer || r.1.removedHeader.contentLength with
    | some n, false => [js "Content-Length: " ++ decimal n]
    | _, _ =>
      if r.1.removedHeader.transferEncoding = false then [js "Transfer-Encoding: chunked"] else []
  else []

theorem storeDate_messageHeader (env : Environment) (r : OutgoingMessage × HeaderState) :
    (storeDate env r).2.messageHeader = r.2.messageHeader ++ textLines (dateLines env r) := by
  simp only [storeDate, dateLines]
  split
  · simp
  · simp

theorem storeConnection_messageHeader (r : OutgoingMessage × HeaderState) :
    (storeConnection r).2.messageHeader = r.2.messageHeader ++ textLines (connectionLines r) := by
  simp only [storeConnection, connectionLines]
  repeat' split
  all_goals simp

theorem storeFraming_messageHeader (r : OutgoingMessage × HeaderState) :
    (storeFraming r).2.messageHeader = r.2.messageHeader ++ textLines (framingLines r) := by
  obtain ⟨m, state⟩ := r
  simp only [storeFraming, framingLines]
  by_cases announced : state.sentContentLengthHeader = false ∧
      state.sentTransferEncodingHeader = false
  · rw [if_pos announced]
    cases hasBody : m.hasBody with
    | false => simp
    | true =>
      cases byDefault : m.useChunkedEncodingByDefault with
      | false => simp
      | true =>
        cases length : m.contentLength <;>
          cases trailer : state.sentTrailer || m.removedHeader.contentLength <;>
          cases removed : m.removedHeader.transferEncoding <;>
          simp_all
  rw [if_neg announced, if_neg (fun all => announced ⟨all.1, all.2.1⟩)]
  simp

/-- What is known after the fields and the date. -/
def afterFields (env : Environment) (firstLine : JSString) (headers : List (JSString × Value))
    (m : OutgoingMessage) : OutgoingMessage × HeaderState :=
  storeFields env headers (m, .start firstLine)

/-- What is known when the keep-alive logic begins. -/
def afterDate (env : Environment) (firstLine : JSString) (headers : List (JSString × Value))
    (m : OutgoingMessage) : OutgoingMessage × HeaderState :=
  let r := storeDate env (afterFields env firstLine headers m)
  (r.1.forceClose, r.2)

/-- What is known when all lines are there. -/
def afterFraming (env : Environment) (firstLine : JSString) (headers : List (JSString × Value))
    (m : OutgoingMessage) : OutgoingMessage × HeaderState :=
  storeFraming (storeConnection (afterDate env firstLine headers m))

/-- The message with its header, before it may be sent -/
def stored (env : Environment) (firstLine : JSString) (headers : List (JSString × Value))
    (m : OutgoingMessage) : OutgoingMessage :=
  let r := afterFraming env firstLine headers m
  { r.1 with header := some (r.2.messageHeader ++ crlf), headerSent := false }

theorem storeHeaders_eq (env : Environment) (link : Option Link) (firstLine : JSString)
    (headers : List (JSString × Value)) (m : OutgoingMessage) :
    m.storeHeaders env link firstLine headers =
      if (afterFraming env firstLine headers m).2.sentExpect then
        (m.stored env firstLine headers).send link { data := .string [], encoding := none }
      else (m.stored env firstLine headers, []) := by
  rfl

/-- The fields that a message adds by itself -/
def automatic (env : Environment) (firstLine : JSString) (headers : List (JSString × Value))
    (m : OutgoingMessage) : List JSString :=
  dateLines env (afterFields env firstLine headers m) ++
    connectionLines (afterDate env firstLine headers m) ++
    framingLines (storeConnection (afterDate env firstLine headers m))

theorem stored_header (env : Environment) (firstLine : JSString)
    (headers : List (JSString × Value)) (m : OutgoingMessage) :
    (m.stored env firstLine headers).header = some (firstLine ++
        (textLines ((fieldLines headers).map fieldLine ++ m.automatic env firstLine headers) ++
          crlf)) := by
  have lines : (afterFraming env firstLine headers m).2.messageHeader = firstLine ++
        textLines ((fieldLines headers).map fieldLine ++ m.automatic env firstLine headers) := by
    have date : (afterDate env firstLine headers m).2.messageHeader = firstLine ++
        textLines ((fieldLines headers).map fieldLine) ++
        textLines (dateLines env (afterFields env firstLine headers m)) := by
      rw [afterDate, storeDate_messageHeader, afterFields, storeFields_messageHeader]
      rfl
    rw [afterFraming, storeFraming_messageHeader, storeConnection_messageHeader, date, automatic]
    simp
  simp [stored, lines]

/-! ## What storing a header leaves as it is -/

/-- The message with the three flags that the header decides on -/
def withFlags (m flags : OutgoingMessage) : OutgoingMessage :=
  { m with
    last := flags.last
    shouldKeepAlive := flags.shouldKeepAlive
    chunkedEncoding := flags.chunkedEncoding }

theorem storeHeader_eq (env : Environment) (field value : JSString)
    (r : OutgoingMessage × HeaderState) :
    (storeHeader env field value r).1 = r.1.withFlags (storeHeader env field value r).1 := by
  simp only [storeHeader]
  repeat' split
  all_goals rfl

theorem storeFields_eq (env : Environment) (headers : List (JSString × Value))
    (r : OutgoingMessage × HeaderState) :
    (storeFields env headers r).1 = r.1.withFlags (storeFields env headers r).1 := by
  rw [storeFields]
  induction fieldLines headers generalizing r with
  | nil => rfl
  | cons field fields ih =>
    refine (ih _).trans ?_
    rw [storeHeader_eq]
    rfl

theorem storeConnection_eq (r : OutgoingMessage × HeaderState) :
    (storeConnection r).1 = r.1.withFlags (storeConnection r).1 := by
  simp only [storeConnection]
  repeat' split
  all_goals rfl

theorem storeFraming_eq (r : OutgoingMessage × HeaderState) :
    (storeFraming r).1 = r.1.withFlags (storeFraming r).1 := by
  simp only [storeFraming]
  repeat' split
  all_goals rfl

theorem afterDate_eq (env : Environment) (firstLine : JSString)
    (headers : List (JSString × Value)) (m : OutgoingMessage) :
    (afterDate env firstLine headers m).1 = m.withFlags (afterDate env firstLine headers m).1 := by
  have date : (storeDate env (afterFields env firstLine headers m)).1 =
      (afterFields env firstLine headers m).1 := by grind [storeDate]
  have fields : (afterFields env firstLine headers m).1 =
      m.withFlags (afterFields env firstLine headers m).1 :=
    storeFields_eq env headers (m, .start firstLine)
  simp only [afterDate, date, forceClose]
  split
  · conv_lhs => rw [fields]
    rfl
  · exact fields

theorem stored_eq (env : Environment) (firstLine : JSString)
    (headers : List (JSString × Value)) (m : OutgoingMessage) :
    m.stored env firstLine headers = { m.withFlags (m.stored env firstLine headers) with
        header := (m.stored env firstLine headers).header
        headerSent := false } := by
  have flags : (afterFraming env firstLine headers m).1 =
      m.withFlags (afterFraming env firstLine headers m).1 := by
    rw [afterFraming]
    conv_lhs => rw [storeFraming_eq, storeConnection_eq, afterDate_eq]
    rfl
  rw [stored]
  conv_lhs => rw [flags]
  rfl

/-! ## `writeHead` -/

/-- The message with the status that `writeHead` sets -/
def withStatus (statusCode : Nat) (statusMessage : JSString) (m : OutgoingMessage) :
    OutgoingMessage :=
  { m with statusMessage := some statusMessage, statusCode := some statusCode }

theorem setHeaders_withStatus (env : Environment) (obj : List (JSString × Value))
    (statusCode : Nat) (statusMessage : JSString) (m : OutgoingMessage) :
    (m.withStatus statusCode statusMessage).setHeaders env obj =
      (m.setHeaders env obj).map (withStatus statusCode statusMessage) := by
  rw [setHeaders, setHeaders]
  induction obj.filter (·.1 ≠ []) generalizing m with
  | nil => rfl
  | cons header headers ih =>
    have first : (m.withStatus statusCode statusMessage).setHeader env header.1 header.2 =
        (m.setHeader env header.1 header.2).map (withStatus statusCode statusMessage) := by
      cases stored : m.header <;> simp [setHeader, withStatus, stored]
    rw [foldlM_cons, foldlM_cons, first]
    cases m.setHeader env header.1 header.2 with
    | none => rfl
    | some m => exact ih m

/-- The message as `writeHead` stores its header -/
def withoutBody (statusCode : Nat) (m : OutgoingMessage) : OutgoingMessage :=
  { m with
    hasBody := m.hasBody && !noBody statusCode
    shouldKeepAlive := m.shouldKeepAlive && !(m.expectContinue && !m.sent100) }

variable {m : OutgoingMessage}

theorem setHeaders_unstored (env : Environment) (obj : List (JSString × Value))
    (unstored : m.header = none) :
    ∃ m', m.setHeaders env obj = some m' ∧ m'.header = none := by
  rw [setHeaders]
  induction obj.filter (·.1 ≠ []) generalizing m with
  | nil => exact ⟨m, rfl, unstored⟩
  | cons header headers ih =>
    obtain ⟨m', first, unstored⟩ :
        ∃ m', m.setHeader env header.1 header.2 = some m' ∧ m'.header = none := by
      rw [setHeader, if_neg (by simp [unstored])]
      exact ⟨_, rfl, unstored⟩
    rw [foldlM_cons, first]
    exact ih unstored

/-- The fields that `writeHead` stores -/
def givenFields (env : Environment) (obj : List (JSString × Value)) (m : OutgoingMessage) :
    List (JSString × JSString) :=
  ((m.headersOf env obj).map fun r => fieldLines r.2).getD []

section

variable (env : Environment)

theorem storeHeaders_headerText (link : Option Link) (firstLine : JSString)
    (headers : List (JSString × Value)) (m : OutgoingMessage) :
    (m.storeHeaders env link firstLine headers).1.headerText =
      (m.stored env firstLine headers).headerText := by
  rw [storeHeaders_eq]
  split
  · rw [headerText, send_header]
    rfl
  · rfl

theorem writeHead_eq (link : Option Link) (statusCode : Nat)
    (reason : Option JSString) (obj : List (JSString × Value)) (m : OutgoingMessage) :
    m.writeHead env link statusCode reason obj =
      let statusMessage := m.reasonPhrase statusCode reason
      match (m.withStatus statusCode statusMessage).headersOf env obj with
      | none => (m.withStatus statusCode statusMessage, [])
      | some (m, headers) =>
        (m.withoutBody statusCode).storeHeaders env link (statusLine statusCode statusMessage)
          headers := rfl

theorem headersOf_withStatus (obj : List (JSString × Value))
    (statusCode : Nat) (statusMessage : JSString) (unstored : m.header = none) :
    ∃ m' headers, m'.header = none ∧ m.headersOf env obj = some (m', headers) ∧
      (m.withStatus statusCode statusMessage).headersOf env obj =
        some (m'.withStatus statusCode statusMessage, headers) := by
  have same : (m.withStatus statusCode statusMessage).headers = m.headers := rfl
  rw [headersOf, headersOf, same, setHeaders_withStatus]
  by_cases progressive : m.headers.isSome
  · obtain ⟨m', set, unstored⟩ := setHeaders_unstored env obj unstored
    obtain ⟨headers, rendered⟩ : ∃ headers, m'.renderHeaders = some headers :=
      ⟨_, if_neg (by simp [unstored])⟩
    have rendered' : (m'.withStatus statusCode statusMessage).renderHeaders = some headers :=
      rendered
    refine ⟨m', headers, unstored, ?_, ?_⟩
    · simp [progressive, set, rendered]
    · simp [progressive, set, rendered']
  · exact ⟨m, obj, unstored, if_neg progressive, if_neg progressive⟩

theorem writeHead_headerText (link : Option Link) (statusCode : Nat)
    (reason : Option JSString) {obj headers : List (JSString × Value)} {m' : OutgoingMessage}
    (unstored : m.header = none) (found : m.headersOf env obj = some (m', headers)) :
    ∃ m'' : OutgoingMessage, (m.writeHead env link statusCode reason obj).1.headerText =
      (m''.stored env (statusLine statusCode (m.reasonPhrase statusCode reason)) headers).headerText
    := by
  obtain ⟨middle, headers', -, here, there⟩ :=
    headersOf_withStatus env obj statusCode (m.reasonPhrase statusCode reason) unstored
  obtain ⟨rfl, rfl⟩ := Prod.mk.inj (some.inj (here.symm.trans found))
  refine ⟨(middle.withStatus statusCode (m.reasonPhrase statusCode reason)).withoutBody statusCode,
    ?_⟩
  rw [writeHead_eq]
  simpa [there] using storeHeaders_headerText env link _ headers' _

end

/-- The message with the headers that are set -/
def withHeaders (m other : OutgoingMessage) : OutgoingMessage :=
  { m with headers := other.headers, removedHeader := other.removedHeader }

variable {env : Environment} {obj : List (JSString × Value)} {m' : OutgoingMessage}

theorem setHeaders_eq (set : m.setHeaders env obj = some m') : m' = m.withHeaders m' := by
  rw [setHeaders] at set
  generalize obj.filter (·.1 ≠ []) = fields at set
  induction fields generalizing m with
  | nil =>
    obtain rfl : m = m' := some.inj set
    rfl
  | cons header headers ih =>
    rw [foldlM_cons, bind_eq_bind, bind_eq_some_iff] at set
    obtain ⟨middle, first, set⟩ := set
    have here : middle = m.withHeaders middle := by
      rw [setHeader] at first
      split at first
      · cases first
      cases first
      rfl
    refine (ih set).trans ?_
    rw [here]
    rfl

theorem setHeaders_removed (set : m.setHeaders env obj = some m')
    (none : m.removedHeader = ⟨false, false, false⟩) :
    m'.removedHeader = ⟨false, false, false⟩ := by
  rw [setHeaders] at set
  generalize obj.filter (·.1 ≠ []) = fields at set
  induction fields generalizing m with
  | nil => rw [← some.inj set, none]
  | cons header headers ih =>
    rw [foldlM_cons, bind_eq_bind, bind_eq_some_iff] at set
    obtain ⟨middle, first, set⟩ := set
    refine ih ?_ set
    rw [setHeader] at first
    split at first
    · cases first
    cases first
    simp [none]

variable {headers : List (JSString × Value)}

theorem headersOf_removed (found : m.headersOf env obj = some (m', headers))
    (none : m.removedHeader = ⟨false, false, false⟩) :
    m'.removedHeader = ⟨false, false, false⟩ := by
  rw [headersOf] at found
  split at found
  · rw [bind_eq_some_iff] at found
    obtain ⟨middle, set, found⟩ := found
    rw [map_eq_some_iff] at found
    obtain ⟨rendered, -, eq⟩ := found
    rw [← (Prod.mk.inj eq).1]
    exact setHeaders_removed set none
  · grind

theorem headersOf_eq (found : m.headersOf env obj = some (m', headers)) :
    m' = m.withHeaders m' := by
  rw [headersOf] at found
  split at found
  · rw [bind_eq_some_iff] at found
    obtain ⟨middle, set, found⟩ := found
    rw [map_eq_some_iff] at found
    obtain ⟨rendered, -, eq⟩ := found
    rw [← (Prod.mk.inj eq).1]
    exact setHeaders_eq set
  rw [← (Prod.mk.inj (some.inj found)).1]
  rfl

theorem headersOf_stored (env : Environment) (obj : List (JSString × Value))
    (stored : m.header.isSome) (progressive : m.headers.isSome) : m.headersOf env obj = none := by
  have render : m.renderHeaders = none := if_pos stored
  rw [headersOf, if_pos progressive, setHeaders]
  cases obj.filter (·.1 ≠ []) with
  | nil => rw [foldlM_nil, Option.pure_def, bind_some, render, map_none]
  | cons header =>
    have first : m.setHeader env header.1 header.2 = none := if_pos stored
    simp [first]

theorem writeHead_cases (env : Environment) (link : Option Link) (statusCode : Nat)
    (reason : Option JSString) (obj : List (JSString × Value)) (m : OutgoingMessage) :
    (m.header.isSome ∧ m.headers.isSome ∧ m.writeHead env link statusCode reason obj =
      (m.withStatus statusCode (m.reasonPhrase statusCode reason), [])) ∨
    ((m.header = none ∨ m.headers = none) ∧ ∃ m' headers,
      m' = (m.withStatus statusCode (m.reasonPhrase statusCode reason)).withHeaders m' ∧
      m.writeHead env link statusCode reason obj = (m'.withoutBody statusCode).storeHeaders env link
        (statusLine statusCode (m.reasonPhrase statusCode reason)) headers) := by
  rw [writeHead_eq]
  by_cases thrown : m.header.isSome ∧ m.headers.isSome
  · left
    have none : (m.withStatus statusCode (m.reasonPhrase statusCode reason)).headersOf env obj =
        none := headersOf_stored env obj thrown.1 thrown.2
    simp only [none]
    exact ⟨thrown.1, thrown.2, trivial⟩
  right
  have possible : m.header = none ∨ m.headers = none := by simpa using not_and_or.mp thrown
  refine ⟨possible, ?_⟩
  obtain ⟨m', headers, found⟩ : ∃ m' headers,
      (m.withStatus statusCode (m.reasonPhrase statusCode reason)).headersOf env obj =
        some (m', headers) := by
    obtain unstored | alone := possible
    · obtain ⟨m', headers, -, -, found⟩ :=
        headersOf_withStatus env obj statusCode (m.reasonPhrase statusCode reason) unstored
      exact ⟨_, headers, found⟩
    · exact ⟨_, obj, if_neg (by simp [withStatus, alone])⟩
  refine ⟨m', headers, headersOf_eq found, ?_⟩
  simp only [found]

/-- What a message has sent of its header -/
def sentHeader (m : OutgoingMessage) : List Symbol :=
  if m.headerSent then symbols m.headerText else []

variable {link : Option Link}

theorem content_storeHeaders (lossless : Lossless link) (env : Environment)
    (firstLine : JSString) (headers : List (JSString × Value)) (m : OutgoingMessage) :
    content (produced (m.storeHeaders env link firstLine headers)) =
      content m.output ++ (m.storeHeaders env link firstLine headers).1.sentHeader := by
  have output : (m.stored env firstLine headers).output = m.output := by rw [stored_eq]; rfl
  have unsent : (m.stored env firstLine headers).headerSent = false := rfl
  rw [storeHeaders_eq]
  split
  · have fits :
      (m.stored env firstLine headers).Fits [{ data := .string [], encoding := none }] := by
      intro _ _ piece mem
      cases mem
      rfl
    rw [content_send lossless fits, output, sentHeader, send_headerSent, if_pos rfl, headerText,
      send_header, unsentHeader, unsent]
    exact congrArg _ (append_nil _)
  rw [sentHeader, unsent, produced, output]
  simp

theorem storeHeaders_fields (env : Environment) (link : Option Link) (firstLine : JSString)
    (headers : List (JSString × Value)) (m : OutgoingMessage) :
    (m.storeHeaders env link firstLine headers).1.header.isSome ∧
      (m.storeHeaders env link firstLine headers).1.finished = m.finished := by
  rw [storeHeaders_eq]
  split
  · rw [send_eq, stored_eq]
    exact ⟨by rw [stored_header]; rfl, rfl⟩
  rw [stored_eq]
  exact ⟨by rw [stored_header]; rfl, rfl⟩

theorem writeHead_stores (lossless : Lossless link) (env : Environment)
    (statusCode : Nat) (reason : Option JSString) (obj : List (JSString × Value))
    (possible : m.header = none ∨ m.headers = none) :
    let r := m.writeHead env link statusCode reason obj
    content (produced r) = content m.output ++ r.1.sentHeader ∧ r.1.header.isSome ∧
      r.1.finished = m.finished := by
  obtain ⟨stored, progressive, -⟩ | ⟨-, m', headers, same, result⟩ :=
    m.writeHead_cases env link statusCode reason obj
  · grind
  have output : (m'.withoutBody statusCode).output = m.output := by rw [same]; rfl
  have finished : (m'.withoutBody statusCode).finished = m.finished := by rw [same]; rfl
  obtain ⟨stored, kept⟩ := storeHeaders_fields env link
    (statusLine statusCode (m.reasonPhrase statusCode reason)) headers (m'.withoutBody statusCode)
  rw [result]
  refine ⟨?_, stored, kept.trans finished⟩
  rw [content_storeHeaders lossless, output]

theorem ensureHeader_adds (lossless : Lossless link) (env : Environment) (m : OutgoingMessage) :
    let r := m.ensureHeader (implicitHeader env link)
    r.1.header.isSome ∧ r.1.finished = m.finished ∧ (m.header.isSome ∧ r = (m, []) ∨
        m.header = none ∧ content (produced r) = content m.output ++ r.1.sentHeader) := by
  rw [ensureHeader]
  by_cases unstored : m.header = none
  · rw [if_pos (by rw [unstored]; rfl)]
    have stores := writeHead_stores lossless env (m.statusCode.getD 200) none [] (.inl unstored)
    exact ⟨stores.2.1, stores.2.2, .inr ⟨unstored, stores.1⟩⟩
  have stored : m.header.isSome := isSome_iff_ne_none.mpr unstored
  rw [if_neg (by rw [isNone_iff_eq_none]; exact unstored)]
  exact ⟨stored, rfl, .inl ⟨stored, rfl⟩⟩

end OutgoingMessage

end IoJs.Http
