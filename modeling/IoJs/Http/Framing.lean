import IoJs.Http.HeaderOrder
import IoJs.Http.Receiver
import IoJs.Http.Splitting

/-!
# Framing

A response to an HTTP/1.1 request, with a body, on which nothing about the framing is set. When
the first call is `end`, the length of the body is announced; else it is sent in chunks. Whatever
the calls are, and whenever the socket comes, what is produced is the header and a body that a
receiver reads by that announcement as the chunks that were written, to the last byte.
-/

namespace IoJs.Http

open IoJs.Stream IoJs.RegExp IoJs.Buffer IoJs.Library OutgoingMessage List Option

/-! ## Bytes -/

/-- What goes out for a piece -/
def Piece.sent (ways : Piece → Way) (piece : Piece) : Option (List UInt8) :=
  match piece.data with
  | .string text => Buffer.sent (ways piece) text piece.encoding
  | .buffer bytes => some bytes

/-- What goes out for some pieces -/
def wireBytes (ways : Piece → Way) : List Piece → Option (List UInt8)
  | [] => some []
  | piece :: pieces => (piece.sent ways).bind fun bytes => (wireBytes ways pieces).map (bytes ++ ·)

theorem wireBytes_append {ways : Piece → Way} {left right : List Piece} {bytes bytes' : List UInt8}
    (first : wireBytes ways left = some bytes) (second : wireBytes ways right = some bytes') :
    wireBytes ways (left ++ right) = some (bytes ++ bytes') := by
  induction left generalizing bytes with
  | nil =>
    cases first
    exact second
  | cons piece left ih =>
    rw [wireBytes, bind_eq_some_iff] at first
    obtain ⟨here, sent, first⟩ := first
    rw [map_eq_some_iff] at first
    obtain ⟨others, first, rfl⟩ := first
    simp [wireBytes, sent, ih first]

/-- A name of UTF-8, or none -/
def IsUtf8 (encoding : Option JSString) : Prop :=
  ∀ name ∈ encoding, isEncoding name = true ∧ parseEncoding name .binary = .utf8

variable {encoding : Option JSString}

theorem sent_utf8 (utf8 : IsUtf8 encoding) (way : Way)
    (text : JSString) : Buffer.sent way text encoding = some (utf8Write text) := by
  cases encoding with
  | none => cases way <;> rfl
  | some name =>
    obtain ⟨known, parsed⟩ := utf8 name rfl
    have notRaw : toLowerCase name ≠ js "raw" := by
      intro raw
      have binary : parseEncoding name .binary = .binary := by
        rw [parseEncoding, raw]
        rfl
      simp [binary] at parsed
    rw [sent_eq way text known, if_neg (fun both => notRaw both.2), parsed,
      if_neg (by simp)]
    rfl

theorem byteLength_utf8 (utf8 : IsUtf8 encoding) (text : JSString) :
    Buffer.byteLength text encoding = (utf8Write text).length := by
  cases encoding with
  | none => rfl
  | some name =>
    obtain ⟨known, parsed⟩ := utf8 name rfl
    rw [byteLength_some, parseEncoding_default known .utf8 .binary, parsed]
    rfl

theorem sent_binary (way : Way) (text : JSString) :
    Buffer.sent way text (some (js "binary")) = some (oneByte text) := by
  cases way <;> rfl

/-! ## The announcement -/

/-- A field that has nothing to do with the framing -/
def Neutral (env : Environment) (field : JSString × JSString) : Prop :=
  fieldIs env "Connection" field.1 = false ∧ fieldIs env "Content-Length" field.1 = false ∧
    fieldIs env "Transfer-Encoding" field.1 = false ∧ fieldIs env "Trailer" field.1 = false

instance (env : Environment) : DecidablePred (Neutral env) := fun _ => instDecidableAnd

/-- Is there a field that makes the header go out at once? -/
def expects (env : Environment) (fields : List (JSString × JSString)) : Bool :=
  fields.any fun field => fieldIs env "Expect" field.1

/-- The line that announces the length of the body, or the chunks -/
def framingLine : Option Nat → JSString
  | some n => js "Content-Length: " ++ decimal n
  | none => js "Transfer-Encoding: chunked"

/-- What has been found out about the framing: nothing -/
structure Unannounced (state : HeaderState) : Prop where
  connection : state.sentConnectionHeader = false
  contentLength : state.sentContentLengthHeader = false
  transferEncoding : state.sentTransferEncodingHeader = false
  trailer : state.sentTrailer = false

variable {env : Environment}

theorem fieldIs_length {name : String} {field : JSString}
    (is : fieldIs env name field = true) : field.length = (js name).length := by
  rw [fieldIs, beq_iff_eq] at is
  have lengths := congrArg List.length is
  rw [length_map, length_map] at lengths
  exact lengths

variable {r : OutgoingMessage × HeaderState}

theorem storeHeader_neutral {field : JSString × JSString} (neutral : Neutral env field)
    (unannounced : Unannounced r.2) :
    let r' := storeHeader env field.1 field.2 r
    r'.1 = r.1 ∧ Unannounced r'.2 ∧
      r'.2.sentExpect = (r.2.sentExpect || fieldIs env "Expect" field.1) := by
  obtain ⟨noConnection, noLength, noEncoding, noTrailer⟩ := neutral
  obtain ⟨connection, contentLength, transferEncoding, trailer⟩ := unannounced
  simp only [storeHeader, noConnection, noLength, noEncoding, noTrailer,
    Bool.false_eq_true, if_false]
  split
  · rename_i date
    have noExpect : fieldIs env "Expect" field.1 = false := by
      cases is : fieldIs env "Expect" field.1 with
      | false => rfl
      | true =>
        have lengths := (fieldIs_length date).symm.trans (fieldIs_length is)
        exact absurd lengths (by decide)
    rw [noExpect, Bool.or_false]
    exact ⟨rfl, ⟨connection, contentLength, transferEncoding, trailer⟩, rfl⟩
  split
  · rename_i expect
    rw [expect, Bool.or_true]
    exact ⟨rfl, ⟨connection, contentLength, transferEncoding, trailer⟩, rfl⟩
  rename_i noExpect
  rw [Bool.not_eq_true] at noExpect
  rw [noExpect, Bool.or_false]
  exact ⟨rfl, ⟨connection, contentLength, transferEncoding, trailer⟩, rfl⟩

variable {headers : List (JSString × Value)}

theorem storeFields_neutral (neutral : ∀ field ∈ fieldLines headers, Neutral env field)
    (unannounced : Unannounced r.2) :
    let r' := storeFields env headers r
    r'.1 = r.1 ∧ Unannounced r'.2 ∧
      r'.2.sentExpect = (r.2.sentExpect || expects env (fieldLines headers)) := by
  simp only [storeFields, expects]
  generalize fieldLines headers = fields at neutral
  induction fields generalizing r with
  | nil => exact ⟨rfl, unannounced, by simp⟩
  | cons field fields ih =>
    obtain ⟨here, neutral⟩ := forall_mem_cons.mp neutral
    obtain ⟨same, unannounced, expect⟩ := storeHeader_neutral here unannounced
    obtain ⟨same', unannounced', expect'⟩ := ih unannounced neutral
    rw [foldl_cons]
    refine ⟨same'.trans same, unannounced', ?_⟩
    rw [expect', expect, any_cons, Bool.or_assoc]

/-- A message before its header, of which the body is to be framed by default -/
structure Unframed (m : OutgoingMessage) : Prop where
  header : m.header = none
  headerSent : m.headerSent = false
  unfinished : m.finished = false
  hasBody : m.hasBody = true
  trailer : m.trailer = []
  chunkedEncoding : m.chunkedEncoding = false
  byDefault : m.useChunkedEncodingByDefault = true
  removed : m.removedHeader = ⟨false, false, false⟩

variable {m : OutgoingMessage}

theorem afterDate_neutral (firstLine : JSString) (unframed : Unframed m)
    (neutral : ∀ field ∈ fieldLines headers, Neutral env field) :
    (afterDate env firstLine headers m).1 = m ∧ Unannounced (afterDate env firstLine headers m).2 ∧
      (afterDate env firstLine headers m).2.sentExpect = expects env (fieldLines headers) := by
  have start : Unannounced (.start firstLine) := ⟨rfl, rfl, rfl, rfl⟩
  obtain ⟨same, unannounced, expect⟩ :=
    storeFields_neutral (r := (m, .start firstLine)) neutral start
  have date : (storeDate env (afterFields env firstLine headers m)).1 = m ∧
      Unannounced (storeDate env (afterFields env firstLine headers m)).2 ∧
      (storeDate env (afterFields env firstLine headers m)).2.sentExpect =
        expects env (fieldLines headers) := by
    simp only [storeDate]
    split
    · exact ⟨same, ⟨unannounced.connection, unannounced.contentLength,
        unannounced.transferEncoding, unannounced.trailer⟩, expect⟩
    · exact ⟨same, unannounced, expect⟩
  have noChunks : m.forceClose = m := by simp [forceClose, unframed.chunkedEncoding]
  refine ⟨?_, date.2⟩
  rw [afterDate, date.1]
  exact noChunks

theorem stored_unframed (firstLine : JSString) (unframed : Unframed m)
    (neutral : ∀ field ∈ fieldLines headers, Neutral env field) :
    (∃ date connection, m.automatic env firstLine headers =
        date ++ connection ++ [framingLine m.contentLength] ∧
      (date = [] ∨ date = [js "Date: " ++ env.utcDate]) ∧
      (connection = [js "Connection: keep-alive"] ∨ connection = [js "Connection: close"])) ∧
    (m.stored env firstLine headers).chunkedEncoding = m.contentLength.isNone ∧
    (afterFraming env firstLine headers m).2.sentExpect = expects env (fieldLines headers) := by
  obtain ⟨same, unannounced, expect⟩ := afterDate_neutral firstLine unframed neutral
  obtain ⟨connection, contentLength, transferEncoding, trailer⟩ := unannounced
  simp only [automatic, stored, afterFraming]
  have dates : dateLines env (afterFields env firstLine headers m) = [] ∨
      dateLines env (afterFields env firstLine headers m) = [js "Date: " ++ env.utcDate] := by
    grind [dateLines]
  generalize dateLines env (afterFields env firstLine headers m) = date at dates
  generalize afterDate env firstLine headers m = r at *
  obtain ⟨m', state⟩ := r
  obtain rfl : m' = m := same
  simp only at connection contentLength transferEncoding trailer expect
  have noConnection : m'.removedHeader.connection = false := by rw [unframed.removed]
  have lines : connectionLines (m', state) = [js "Connection: keep-alive"] ∨
      connectionLines (m', state) = [js "Connection: close"] := by
    simp only [connectionLines, noConnection, connection, Bool.false_eq_true, if_false, if_true]
    split
    · exact .inl rfl
    · exact .inr rfl
  have after : ∃ last state', storeConnection (m', state) = ({ m' with last }, state') ∧
      state'.sentContentLengthHeader = false ∧ state'.sentTransferEncodingHeader = false ∧
      state'.sentTrailer = false ∧ state'.sentExpect = expects env (fieldLines headers) := by
    simp only [storeConnection, noConnection, connection, Bool.false_eq_true, if_false, if_true]
    split
    · exact ⟨m'.last, _, rfl, contentLength, transferEncoding, trailer, expect⟩
    · exact ⟨true, _, rfl, contentLength, transferEncoding, trailer, expect⟩
  obtain ⟨last, state', eq, contentLength, transferEncoding, trailer, expect⟩ := after
  rw [eq]
  have removed := unframed.removed
  have framing : framingLines ({ m' with last }, state') = [framingLine m'.contentLength] := by
    simp only [framingLines, contentLength, transferEncoding, trailer, unframed.hasBody,
      unframed.byDefault, removed]
    cases m'.contentLength with
    | none => rfl
    | some n => rfl
  refine ⟨⟨date, connectionLines (m', state), by rw [framing], dates, lines⟩, ?_, ?_⟩
  · simp only [storeFraming, contentLength, transferEncoding, trailer, unframed.hasBody,
      unframed.byDefault, removed]
    cases length : m'.contentLength with
    | none => rfl
    | some n => exact unframed.chunkedEncoding
  simp only [storeFraming, contentLength, transferEncoding, trailer, unframed.hasBody,
    unframed.byDefault, removed]
  cases length : m'.contentLength with
  | none => exact expect
  | some n => exact expect

/-- What a message announces -/
def announcement : Option Nat → Framing
  | some n => .contentLength n
  | none => .chunked

theorem Printable.bytes {text : JSString} (printable : Printable text) (charset : Charset) :
    charset.bytes text = oneByte text := by
  apply Charset.bytes_ascii
  intro unit mem
  have range := printable unit mem
  omega

theorem dropWhile_blank_digits (n : Nat) :
    (digits 10 n).dropWhile (fun byte => byte = 0x20 || byte = 0x09) = digits 10 n := by
  cases eq : digits 10 n with
  | nil => rfl
  | cons byte rest =>
    have value : digitsValue 10 0 (digits 10 n) = some n :=
      digitsValue_digits (by decide) (by decide) n
    have digit := digitValue_isSome_of_digitsValue value byte (by rw [eq]; exact mem_cons_self)
    rw [dropWhile_cons, if_neg]
    intro blank
    rw [Bool.or_eq_true, decide_eq_true_eq, decide_eq_true_eq] at blank
    obtain rfl | rfl := blank
    · cases digit
    · cases digit

theorem framingOf_framingLine (charset : Charset) (length : Option Nat) :
    isFraming (charset.bytes (framingLine length)) = true ∧
      framingOf (charset.bytes (framingLine length)) = some (announcement length) := by
  cases length with
  | none =>
    have printable : Printable (framingLine none) := by decide
    rw [printable.bytes charset]
    exact ⟨rfl, rfl⟩
  | some n =>
    have printable : Printable (framingLine (some n)) :=
      printable_append.mpr ⟨by decide, printable_decimal n⟩
    have name : fieldName (oneByte (framingLine (some n))) = ascii "content-length" := rfl
    have value : fieldValue (oneByte (framingLine (some n))) = digits 10 n :=
      dropWhile_blank_digits n
    rw [printable.bytes charset]
    constructor
    · simp [isFraming, name]
    rw [framingOf, if_pos name, value, readNumber_digits (by decide) (by decide)]
    rfl

/-- The lines before the announcement that a message adds by itself -/
def Preceding (env : Environment) (lines : List JSString) : Prop :=
  ∃ date connection, lines = date ++ connection ∧
    (date = [] ∨ date = [js "Date: " ++ env.utcDate]) ∧
    (connection = [js "Connection: keep-alive"] ∨ connection = [js "Connection: close"])

variable {lines : List JSString}

theorem Preceding.automatic (preceding : Preceding env lines) (length : Option Nat) :
    Automatic env (lines ++ [framingLine length]) := by
  obtain ⟨date, connection, rfl, isDate, isConnection⟩ := preceding
  refine ⟨date, connection, _, rfl, isDate, .inr isConnection, ?_⟩
  cases length with
  | none => exact .inr (.inl rfl)
  | some n => exact .inr (.inr ⟨n, rfl⟩)

theorem Preceding.filter_isFraming (preceding : Preceding env lines) (charset : Charset) :
    (lines.map charset.bytes).filter isFraming = [] := by
  rw [filter_eq_nil_iff, List.forall_mem_map]
  obtain ⟨date, connection, rfl, isDate, isConnection⟩ := preceding
  rw [forall_mem_append]
  constructor
  · obtain rfl | rfl := isDate
    · exact nofun
    have printable : Printable (js "Date: " ++ env.utcDate) :=
      printable_append.mpr ⟨by decide, env.utcDate_plain⟩
    have name : fieldName (oneByte (js "Date: " ++ env.utcDate)) = ascii "date" := rfl
    rw [forall_mem_singleton, printable.bytes charset, isFraming, name]
    decide
  obtain rfl | rfl := isConnection
  · have printable : Printable (js "Connection: keep-alive") := by decide
    rw [forall_mem_singleton, printable.bytes charset]
    decide
  have printable : Printable (js "Connection: close") := by decide
  rw [forall_mem_singleton, printable.bytes charset]
  decide

/-- A header: the lines that were given, those that precede the announcement, the announcement -/
def HeaderOf (env : Environment) (given : List JSString) (length : Option Nat)
    (header : JSString) : Prop :=
  ∃ preceding, Preceding env preceding ∧
    header = textLines (given ++ (preceding ++ [framingLine length])) ++ crlf

/-- The lines that are given to a header -/
def givenLines (env : Environment) (statusCode : Nat) (reason : Option JSString)
    (obj : List (JSString × Value)) (m : OutgoingMessage) : List JSString :=
  (js "HTTP/1.1 " ++ decimal statusCode ++ js " " ++ m.reasonPhrase statusCode reason) ::
    (m.givenFields env obj).map fieldLine

/-- A message with its header -/
structure Headed (env : Environment) (given : List JSString) (length : Option Nat)
    (m : OutgoingMessage) : Prop where
  header : ∃ header, m.header = some header ∧ HeaderOf env given length header
  hasBody : m.hasBody = true
  trailer : m.trailer = []
  unfinished : m.finished = false
  chunkedEncoding : m.chunkedEncoding = length.isNone

variable {link : Option Link}

theorem storeHeaders_unframed (lossless : Lossless link) (start : JSString)
    (unframed : Unframed m) (neutral : ∀ field ∈ fieldLines headers, Neutral env field) :
    let r := m.storeHeaders env link (start ++ crlf) headers
    Headed env (start :: (fieldLines headers).map fieldLine) m.contentLength r.1 ∧
      if expects env (fieldLines headers) then
        r.1.headerSent = true ∧ OutgoingMessage.produced r =
            m.output ++ [{ data := .string r.1.headerText, encoding := none }]
      else r.1.headerSent = false ∧ r.2 = [] ∧ r.1.output = m.output := by
  obtain ⟨⟨date, connection, lines, isDate, isConnection⟩, chunked, expect⟩ :=
    stored_unframed (start ++ crlf) unframed neutral
  have text : (m.stored env (start ++ crlf) headers).header =
      some (textLines (start :: (fieldLines headers).map fieldLine ++
        (date ++ connection ++ [framingLine m.contentLength])) ++ crlf) := by
    simp [stored_header, lines, textLines_cons]
  have eq := stored_eq env (start ++ crlf) headers m
  have headed : Headed env (start :: (fieldLines headers).map fieldLine) m.contentLength
      (m.stored env (start ++ crlf) headers) := by
    refine ⟨⟨_, text, _, ⟨date, connection, rfl, isDate, isConnection⟩, rfl⟩, ?_, ?_, ?_, chunked⟩
    · rw [eq]
      exact unframed.hasBody
    · rw [eq]
      exact unframed.trailer
    rw [eq]
    exact unframed.unfinished
  have output : (m.stored env (start ++ crlf) headers).output = m.output := by
    rw [eq]
    rfl
  have unsent : (m.stored env (start ++ crlf) headers).headerSent = false := rfl
  simp only [storeHeaders_eq, expect]
  cases expects env (fieldLines headers) with
  | false => exact ⟨headed, unsent, rfl, output⟩
  | true =>
    simp only [if_true]
    refine ⟨?_, send_headerSent _ _ _, ?_⟩
    · rw [send_eq]
      exact ⟨headed.header, headed.hasBody, headed.trailer, headed.unfinished,
        headed.chunkedEncoding⟩
    have fits : Prefixable { data := .string [], encoding := none } = some [] := rfl
    have same : ((m.stored env (start ++ crlf) headers).send link
        { data := .string [], encoding := none }).1.headerText =
        (m.stored env (start ++ crlf) headers).headerText := by
      simp [headerText, send_header]
    rw [produced_send_text lossless unsent fits, output, same, append_nil, headerText, text]
    rw [Piece.filled_of_ne]
    simp [Data.length, crlf]

theorem writeHead_unframed (lossless : Lossless link)
    {statusCode : Nat} {reason : Option JSString} {obj : List (JSString × Value)}
    (unframed : Unframed m) (bodied : noBody statusCode = false)
    (neutral : ∀ field ∈ m.givenFields env obj, Neutral env field) :
    let r := m.writeHead env link statusCode reason obj
    Headed env (givenLines env statusCode reason obj m) m.contentLength r.1 ∧
      if expects env (m.givenFields env obj) then
        r.1.headerSent = true ∧ OutgoingMessage.produced r =
            m.output ++ [{ data := .string r.1.headerText, encoding := none }]
      else r.1.headerSent = false ∧ r.2 = [] ∧ r.1.output = m.output := by
  obtain ⟨m', headers, unstored, here, there⟩ :=
    headersOf_withStatus env obj statusCode (m.reasonPhrase statusCode reason) unframed.header
  have same := headersOf_eq here
  have removed := headersOf_removed here unframed.removed
  have fields : m.givenFields env obj = fieldLines headers := by
    rw [givenFields, here]
    rfl
  have stores : m.writeHead env link statusCode reason obj =
      ((m'.withStatus statusCode (m.reasonPhrase statusCode reason)).withoutBody statusCode
        ).storeHeaders env link (statusLine statusCode (m.reasonPhrase statusCode reason))
          headers := by
    rw [writeHead_eq]
    simp only [there]
  have unframed' : Unframed
      ((m'.withStatus statusCode (m.reasonPhrase statusCode reason)).withoutBody statusCode) := by
    rw [same] at removed ⊢
    refine ⟨unframed.header, unframed.headerSent, unframed.unfinished, ?_, unframed.trailer,
      unframed.chunkedEncoding, unframed.byDefault, removed⟩
    simp [withoutBody, withStatus, withHeaders, unframed.hasBody, bodied]
  have length : ((m'.withStatus statusCode (m.reasonPhrase statusCode reason)).withoutBody
      statusCode).contentLength = m.contentLength := by
    rw [same]
    rfl
  have output : ((m'.withStatus statusCode (m.reasonPhrase statusCode reason)).withoutBody
      statusCode).output = m.output := by
    rw [same]
    rfl
  rw [fields] at neutral
  have stored := storeHeaders_unframed lossless
    (js "HTTP/1.1 " ++ decimal statusCode ++ js " " ++ m.reasonPhrase statusCode reason)
    unframed' neutral
  rw [length, output] at stored
  simp only [stores, fields, givenLines]
  exact stored

/-! ## Chunks on the wire -/

/-- The bytes of a chunk, where strings are UTF-8 -/
def Data.bytes : Data → List UInt8
  | .string text => utf8Write text
  | .buffer bytes => bytes

/-- How the header is encoded that goes with a chunk -/
def Data.charset : Data → Charset
  | .string _ => .utf8
  | .buffer _ => .oneByte

/-- A Buffer, or a string in UTF-8 -/
def IsChunk (chunk : Data) (encoding : Option JSString) : Prop :=
  ∀ text, chunk = .string text → IsUtf8 encoding

theorem IsUtf8.ne (utf8 : IsUtf8 encoding) {name : JSString}
    (other : parseEncoding name .binary ≠ .utf8) : encoding ≠ some name := by
  rintro rfl
  exact other (utf8 name rfl).2

theorem byteLength_chunk {chunk : Data} (utf8 : IsChunk chunk encoding) :
    byteLength encoding chunk = chunk.bytes.length := by
  cases chunk with
  | string text => exact byteLength_utf8 (utf8 text rfl) text
  | buffer => rfl

theorem bytes_header (charset : Charset) (lines : JSString) (rest : JSString) :
    charset.bytes (lines ++ crlf ++ rest) = charset.bytes (lines ++ crlf) ++
      charset.bytes rest := by
  have whole := bytes_append_crlf charset lines []
  have none : charset.bytes [] = [] := by cases charset <;> rfl
  rw [append_nil, none, append_nil] at whole
  rw [bytes_append_crlf, whole]

theorem oneByte_hex (n : Nat) : oneByte (hex n) = digits 16 n := rfl

theorem exists_digitChar_of_mem_toDigits {base : Nat} (some_ : 1 < base) {n : Nat} {c : Char}
    (mem : c ∈ Nat.toDigits base n) : ∃ digit < base, c = digit.digitChar := by
  induction n using Nat.strong_induction_on with
  | _ n ih =>
    rw [Nat.toDigits_eq_if some_] at mem
    split at mem
    · grind
    obtain mem | mem := mem_append.mp mem
    · exact ih (n / base) (Nat.div_lt_self (by omega) some_) mem
    · exact ⟨n % base, Nat.mod_lt n (by omega), mem_singleton.mp mem⟩

theorem printable_hex (n : Nat) : Printable (hex n) := by
  have each : ∀ digit < 16, 0x20 ≤ (unit digit.digitChar).toNat ∧
    (unit digit.digitChar).toNat < 0x7F := by
    decide
  intro unit mem
  obtain ⟨c, isDigit, rfl⟩ := List.mem_map.mp mem
  have some_ : 1 < 16 := by decide
  obtain ⟨digit, small, rfl⟩ := exists_digitChar_of_mem_toDigits some_ isDigit
  exact each digit small

theorem utf8Write_chunk (text : JSString) :
    utf8Write (hex (utf8Write text).length ++ crlf ++ text ++ crlf) =
      chunkBytes (utf8Write text) := by
  have size : Charset.utf8.bytes (hex (utf8Write text).length) =
    digits 16 (utf8Write text).length :=
    (printable_hex _).bytes .utf8
  have first := bytes_append_crlf .utf8 (hex (utf8Write text).length) (text ++ crlf)
  have second := bytes_append_crlf .utf8 text []
  rw [append_nil] at second
  rw [second, size] at first
  rw [chunkBytes]
  simp only [append_assoc] at first ⊢
  exact first

section Wire

variable {ways : Piece → Way} {link : Option Link} {m : OutgoingMessage} {chunk : Data}
  {encoding : Option JSString}

theorem frame_string {text : JSString} (utf8 : IsUtf8 encoding) : frame (.string text) encoding =
    [{ data := .string (hex (utf8Write text).length ++ crlf ++ text ++ crlf), encoding }] := by
  have three : encoding ≠ some (js "hex") ∧ encoding ≠ some (js "base64") ∧
      encoding ≠ some (js "binary") :=
    ⟨utf8.ne (by decide), utf8.ne (by decide), utf8.ne (by decide)⟩
  simp only [frame, OutgoingMessage.byteLength, byteLength_utf8 utf8]
  rw [if_pos three]

/-- The size of a chunk that is not part of a string -/
def sizePiece (n : Nat) : Piece := ⟨.string (hex n), some (js "binary")⟩

/-- The line ends around such a chunk -/
def crlfPiece : Piece := ⟨.buffer crlfBuffer, none⟩

theorem frame_buffer (bytes : List UInt8) (encoding : Option JSString) :
    frame (.buffer bytes) encoding =
      [sizePiece bytes.length, crlfPiece, ⟨.buffer bytes, encoding⟩, crlfPiece] := rfl

theorem hex_ne_nil (n : Nat) : (hex n).length ≠ 0 := by simp [hex]

theorem wireBytes_buffer {bytes : List UInt8} (filled : bytes.length ≠ 0) :
    wireBytes ways ([crlfPiece, ⟨.buffer bytes, encoding⟩, crlfPiece].flatMap Piece.filled) =
      some (lineEnd ++ bytes ++ lineEnd) := by
  have line : crlfPiece.filled = [crlfPiece] := rfl
  have data : Piece.filled ⟨.buffer bytes, encoding⟩ = [⟨.buffer bytes, encoding⟩] :=
    Piece.filled_of_ne filled
  have all : [crlfPiece, ⟨.buffer bytes, encoding⟩, crlfPiece].flatMap Piece.filled =
      [crlfPiece, ⟨.buffer bytes, encoding⟩, crlfPiece] := by simp [line, data]
  rw [all]
  simp [wireBytes, Piece.sent, crlfPiece, crlfBuffer, lineEnd]

theorem wireBytes_frame (utf8 : IsChunk chunk encoding) (filled : chunk.length ≠ 0) :
    wireBytes ways ((frame chunk encoding).flatMap Piece.filled) =
      some (chunkBytes chunk.bytes) := by
  cases chunk with
  | string text =>
    have utf8 := utf8 text rfl
    rw [frame_string utf8, flatMap_singleton, Piece.filled_of_ne (by simp [Data.length, crlf])]
    simp only [wireBytes, Piece.sent, sent_utf8 utf8, bind_some, map_some,
      append_nil, utf8Write_chunk, Data.bytes]
  | buffer bytes =>
    have size : wireBytes ways (sizePiece bytes.length).filled = some (digits 16 bytes.length) := by
      have one : (sizePiece bytes.length).filled = [sizePiece bytes.length] :=
        Piece.filled_of_ne (hex_ne_nil bytes.length)
      rw [one]
      simp [wireBytes, Piece.sent, sizePiece, sent_binary, oneByte_hex]
    rw [frame_buffer, flatMap_cons, wireBytes_append size (wireBytes_buffer filled)]
    simp [chunkBytes, Data.bytes]

theorem wireBytes_chunk_unsent (lossless : Lossless link) (utf8 : IsChunk chunk encoding)
    (filled : chunk.length ≠ 0) {lines : JSString} (text : m.headerText = lines ++ crlf)
    (unsent : m.headerSent = false) (output : m.output = []) :
    wireBytes ways (OutgoingMessage.produced (m.send link ⟨chunk, encoding⟩)) =
      some (chunk.charset.bytes m.headerText ++ chunk.bytes) := by
  cases chunk with
  | string text' =>
    have utf8 := utf8 text' rfl
    have fits : Prefixable ⟨.string text', encoding⟩ = some text' := by
      exact if_pos ⟨utf8.ne (by decide), utf8.ne (by decide)⟩
    have glued := bytes_header .utf8 lines text'
    rw [produced_send_text lossless unsent fits, output, nil_append, text,
      Piece.filled_of_ne (by simp [Data.length, crlf])]
    simp only [wireBytes, Piece.sent, sent_utf8 utf8, bind_some, map_some,
      append_nil, Data.bytes, Data.charset]
    exact congrArg some glued
  | buffer bytes =>
    have alone : Prefixable ⟨.buffer bytes, encoding⟩ = none := rfl
    have data : Piece.filled ⟨.buffer bytes, encoding⟩ = [⟨.buffer bytes, encoding⟩] :=
      Piece.filled_of_ne filled
    rw [produced_send_other lossless unsent alone, output, nil_append, data]
    simp [wireBytes, Piece.sent, sent_binary, Data.bytes, Data.charset, Charset.bytes]

theorem wireBytes_frame_unsent (lossless : Lossless link) (utf8 : IsChunk chunk encoding)
    (filled : chunk.length ≠ 0) {lines : JSString} (header : m.header = some (lines ++ crlf))
    (unsent : m.headerSent = false) (output : m.output = []) :
    wireBytes ways (OutgoingMessage.produced (m.sends link (frame chunk encoding))) =
      some (chunk.charset.bytes (lines ++ crlf) ++ chunkBytes chunk.bytes) := by
  have text : m.headerText = lines ++ crlf := by
    rw [headerText, header]
    rfl
  cases chunk with
  | string text' =>
    have utf8 := utf8 text' rfl
    have framed : IsChunk (.string (hex (utf8Write text').length ++ crlf ++ text' ++ crlf))
      encoding :=
      fun _ _ => utf8
    rw [frame_string utf8, sends_singleton,
      wireBytes_chunk_unsent lossless framed (by simp [Data.length, crlf]) text unsent output, text,
      Data.bytes, utf8Write_chunk]
    rfl
  | buffer bytes =>
    have fits : Prefixable (sizePiece bytes.length) = some (hex bytes.length) := rfl
    have first : wireBytes ways (OutgoingMessage.produced (m.send link (sizePiece bytes.length))) =
        some (oneByte (lines ++ crlf) ++ digits 16 bytes.length) := by
      rw [produced_send_text lossless unsent fits, output, nil_append, text,
        Piece.filled_of_ne (by simp [Data.length, crlf])]
      simp only [wireBytes, Piece.sent, sizePiece, sent_binary, bind_some, map_some, append_nil]
      rw [oneByte, map_append]
      rfl
    rw [frame_buffer, produced_sends_cons lossless,
      wireBytes_append first (wireBytes_buffer filled)]
    simp [chunkBytes, Data.bytes, Data.charset, Charset.bytes]

end Wire

/-! ## Phases of a response -/

section Phases

variable {env : Environment} {ways : Piece → Way} {link : Option Link} {given : List JSString}
  {m : OutgoingMessage} {wire : List Piece} {chunk : Data} {encoding : Option JSString}
variable {length : Option Nat} {charset : Charset} {chunks : List (List UInt8)} {data : Option Data}
  {n : Nat}

/-- The header is stored and waits for the first chunk. -/
structure Held (env : Environment) (given : List JSString) (m : OutgoingMessage)
    (wire : List Piece) : Prop where
  headed : Headed env given none m
  unsent : m.headerSent = false
  output : m.output = []
  wire : wire = []

/-- The header is sent, and these chunks behind it. -/
structure Open (env : Environment) (ways : Piece → Way) (given : List JSString) (charset : Charset)
    (chunks : List (List UInt8)) (m : OutgoingMessage) (wire : List Piece) : Prop where
  headed : Headed env given none m
  sent : m.headerSent = true
  filled : ∀ data ∈ chunks, data ≠ []
  bytes : wireBytes ways (wire ++ m.output) =
    some (charset.bytes m.headerText ++ chunks.flatMap chunkBytes)

/-- The body is complete, and it reads as it was written. -/
structure Closed (env : Environment) (ways : Piece → Way) (given : List JSString)
    (charset : Charset) (payload : List UInt8) (m : OutgoingMessage) (wire : List Piece) :
    Prop where
  finished : m.finished = true
  complete : ∃ length header body, m.header = some header ∧ HeaderOf env given length header ∧
    wireBytes ways (wire ++ m.output) = some (charset.bytes header ++ body) ∧
    readBody (announcement length) body = some (payload, [])

theorem Headed.sends (headed : Headed env given length m)
    (pieces : List Piece) : Headed env given length (m.sends link pieces).1 := by
  rw [sends_eq]
  exact ⟨headed.header, headed.hasBody, headed.trailer, headed.unfinished, headed.chunkedEncoding⟩

theorem headerText_sends (pieces : List Piece) : (m.sends link pieces).1.headerText =
    m.headerText := by
  rw [headerText, sends_eq]
  rfl

theorem Headed.ends_in_crlf (headed : Headed env given length m) :
    ∃ lines, m.header = some (lines ++ crlf) ∧ m.headerText = lines ++ crlf := by
  obtain ⟨header, eq, preceding, -, rfl⟩ := headed.header
  exact ⟨_, eq, by rw [headerText, eq]; rfl⟩

theorem Data.bytes_ne_nil (filled : chunk.length ≠ 0) : chunk.bytes ≠ [] := by
  cases chunk with
  | string text =>
    have some_ : text ≠ [] := fun none => filled (by rw [none]; rfl)
    have bytes : Charset.utf8.bytes text ≠ [] := Charset.bytes_ne_nil some_
    exact bytes
  | buffer bytes =>
    intro none
    have none : bytes = [] := none
    exact filled (by rw [none]; rfl)

theorem Data.bytes_eq_nil (empty : chunk.length = 0) : chunk.bytes = [] := by
  cases chunk with
  | string text =>
    obtain rfl : text = [] := length_eq_zero_iff.mp empty
    rfl
  | buffer => exact length_eq_zero_iff.mp empty

theorem Headed.body_eq (headed : Headed env given none m) (filled : chunk.length ≠ 0) :
    m.body chunk encoding = frame chunk encoding := by
  have chunked : m.chunkedEncoding = true := headed.chunkedEncoding
  rw [OutgoingMessage.body, if_neg, if_pos chunked]
  rw [headed.hasBody]
  simp [filled]

theorem body_empty (empty : chunk.length = 0) : m.body chunk encoding = [] := if_pos (.inr empty)

theorem Held.write (held : Held env given m wire) (lossless : Lossless link)
    (utf8 : IsChunk chunk encoding) (filled : chunk.length ≠ 0) :
    Open env ways given chunk.charset [chunk.bytes] (m.sends link (m.body chunk encoding)).1
      (wire ++ (m.sends link (m.body chunk encoding)).2) := by
  obtain ⟨lines, header, text⟩ := held.headed.ends_in_crlf
  refine ⟨held.headed.sends _, ?_, ?_, ?_⟩
  · rw [held.headed.body_eq filled]
    apply sends_headerSent
    intro none
    have bytes : wireBytes ways ((frame chunk encoding).flatMap Piece.filled) = _ :=
      wireBytes_frame utf8 filled
    rw [none] at bytes
    have empty := congrArg List.length (some.inj bytes)
    simp [chunkBytes, lineEnd] at empty
  · simpa using Data.bytes_ne_nil filled
  rw [headerText_sends, text, held.headed.body_eq filled, held.wire, nil_append, flatMap_singleton]
  exact wireBytes_frame_unsent lossless utf8 filled header held.unsent held.output

theorem Open.write (open_ : Open env ways given charset chunks m wire) (lossless : Lossless link)
    (utf8 : IsChunk chunk encoding) (filled : chunk.length ≠ 0) :
    Open env ways given charset (chunks ++ [chunk.bytes])
      (m.sends link (m.body chunk encoding)).1
      (wire ++ (m.sends link (m.body chunk encoding)).2) := by
  refine ⟨open_.headed.sends _, ?_, ?_, ?_⟩
  · rw [sends_eq, open_.sent]
    rfl
  · rw [forall_mem_append, forall_mem_singleton]
    exact ⟨open_.filled, Data.bytes_ne_nil filled⟩
  have produced := produced_sends_sent lossless open_.sent (m.body chunk encoding)
  rw [OutgoingMessage.produced] at produced
  rw [headerText_sends, append_assoc, produced, ← append_assoc, open_.headed.body_eq filled,
    wireBytes_append open_.bytes (wireBytes_frame utf8 filled), flatMap_append,
    flatMap_singleton, append_assoc]

theorem Headed.lastPiece_chunked (headed : Headed env given none m) :
    m.lastPiece = ⟨.string (js "0" ++ crlf ++ crlf), some (js "binary")⟩ := by
  have chunked : m.chunkedEncoding = true := headed.chunkedEncoding
  rw [lastPiece, if_pos ⟨headed.hasBody, chunked⟩, headed.trailer, append_nil]

theorem Open.last (open_ : Open env ways given charset chunks m wire) (lossless : Lossless link) :
    wireBytes ways (wire ++ (m.send link m.lastPiece).2 ++ (m.send link m.lastPiece).1.output) =
      some (charset.bytes m.headerText ++ (chunks.flatMap chunkBytes ++ lastChunk)) := by
  have last := open_.headed.lastPiece_chunked
  have produced : OutgoingMessage.produced (m.send link m.lastPiece) =
      m.output ++ m.lastPiece.filled := produced_send_sent lossless open_.sent
  have bytes : wireBytes ways m.lastPiece.filled = some lastChunk := by
    rw [last, Piece.filled_of_ne (by decide)]
    simp only [wireBytes, Piece.sent, sent_binary, bind_some, map_some, append_nil]
    rfl
  rw [OutgoingMessage.produced] at produced
  rw [append_assoc, produced, ← append_assoc, wireBytes_append open_.bytes bytes, append_assoc]

theorem Held.last (held : Held env given m wire) (lossless : Lossless link) :
    wireBytes ways (wire ++ (m.send link m.lastPiece).2 ++ (m.send link m.lastPiece).1.output) =
      some (Charset.oneByte.bytes m.headerText ++ lastChunk) := by
  have last := held.headed.lastPiece_chunked
  have fits : Prefixable m.lastPiece = some (js "0" ++ crlf ++ crlf) := by
    rw [last]
    rfl
  have produced := produced_send_text lossless held.unsent fits
  rw [OutgoingMessage.produced, held.output, nil_append, last,
    Piece.filled_of_ne (by simp [Data.length, crlf])] at produced
  rw [held.wire, nil_append, last, produced]
  simp only [wireBytes, Piece.sent, sent_binary, bind_some, map_some, append_nil]
  rw [oneByte, map_append]
  rfl

theorem closed_of_last (headed : Headed env given none m) (filled : ∀ data ∈ chunks, data ≠ [])
    (bytes : wireBytes ways
        (wire ++ (m.send link m.lastPiece).2 ++ (m.send link m.lastPiece).1.output) =
      some (charset.bytes m.headerText ++ (chunks.flatMap chunkBytes ++ lastChunk))) :
    Closed env ways given charset chunks.flatten
      { (m.send link m.lastPiece).1 with finished := true }
      (wire ++ (m.send link m.lastPiece).2) := by
  obtain ⟨header, eq, isHeader⟩ := headed.header
  refine ⟨rfl, none, header, chunks.flatMap chunkBytes ++ lastChunk, ?_, isHeader, ?_,
    readBody_chunked filled⟩
  · have same := send_header link m.lastPiece m
    exact same.trans eq
  have text : m.headerText = header := by simp [headerText, eq]
  rw [text] at bytes
  exact bytes

/-- The bytes of the data of `end` -/
def endBytes (data : Option Data) : List UInt8 := (data.map Data.bytes).getD []

/-- How the header is encoded that waits until the end -/
def endCharset (data : Option Data) : Charset :=
  match data with
  | some chunk => if chunk.length = 0 then .oneByte else chunk.charset
  | none => .oneByte

theorem given_cases (data : Option Data) :
    (∃ chunk, OutgoingMessage.given data = some chunk ∧ data = some chunk) ∨
      OutgoingMessage.given data = none ∧ endBytes data = [] ∧ endCharset data = .oneByte := by
  cases data with
  | none => exact .inr ⟨rfl, rfl, rfl⟩
  | some chunk =>
    cases chunk with
    | buffer => exact .inl ⟨_, rfl, rfl⟩
    | string text =>
      cases text with
      | nil => exact .inr ⟨rfl, rfl, rfl⟩
      | cons => exact .inl ⟨_, rfl, rfl⟩

theorem Open.ending (open_ : Open env ways given charset chunks m wire) (lossless : Lossless link)
    (utf8 : ∀ chunk ∈ data, IsChunk chunk encoding) :
    Closed env ways given charset (chunks.flatten ++ endBytes data)
      { (m.sends link (m.ending data encoding)).1 with finished := true }
      (wire ++ (m.sends link (m.ending data encoding)).2) := by
  rw [OutgoingMessage.ending, sends_append, sends_singleton]
  obtain ⟨chunk, eq, rfl⟩ | ⟨eq, empty, -⟩ := given_cases data
  · rw [eq, map_some, getD_some]
    by_cases filled : chunk.length = 0
    · rw [body_empty filled, endBytes, map_some, getD_some, Data.bytes_eq_nil filled, append_nil]
      exact closed_of_last open_.headed open_.filled (open_.last lossless)
    have open_' : Open env ways given charset _ _ _ := open_.write lossless (utf8 chunk rfl) filled
    have closed := closed_of_last open_'.headed open_'.filled (open_'.last lossless)
    rw [lastPiece_sends, flatten_append, flatten_singleton] at closed
    rw [← append_assoc]
    exact closed
  rw [eq, empty, append_nil]
  exact closed_of_last open_.headed open_.filled (open_.last lossless)

theorem Held.ending (held : Held env given m wire) (lossless : Lossless link)
    (utf8 : ∀ chunk ∈ data, IsChunk chunk encoding) :
    Closed env ways given (endCharset data) (endBytes data)
      { (m.sends link (m.ending data encoding)).1 with finished := true }
      (wire ++ (m.sends link (m.ending data encoding)).2) := by
  have none : ∀ data ∈ ([] : List (List UInt8)), data ≠ [] := nofun
  rw [OutgoingMessage.ending, sends_append, sends_singleton]
  obtain ⟨chunk, eq, rfl⟩ | ⟨eq, empty, charset⟩ := given_cases data
  · rw [eq, map_some, getD_some]
    by_cases filled : chunk.length = 0
    · rw [body_empty filled, endBytes, endCharset, if_pos filled, map_some, getD_some,
        Data.bytes_eq_nil filled]
      exact closed_of_last held.headed none (held.last lossless)
    have open_ : Open env ways given chunk.charset _ _ _ :=
      held.write lossless (utf8 chunk rfl) filled
    have closed := closed_of_last open_.headed open_.filled (open_.last lossless)
    rw [lastPiece_sends, flatten_singleton] at closed
    rw [← append_assoc, endCharset, if_neg filled]
    exact closed
  rw [eq, empty, charset]
  exact closed_of_last held.headed none (held.last lossless)

/-! ### With the length announced -/

theorem Headed.body_length (headed : Headed env given (some n) m)
    (filled : chunk.length ≠ 0) : m.body chunk encoding = [⟨chunk, encoding⟩] := by
  have whole : m.chunkedEncoding = false := headed.chunkedEncoding
  rw [OutgoingMessage.body, if_neg, if_neg]
  · rw [whole]
    decide
  rw [headed.hasBody]
  simp [filled]

theorem Headed.lastPiece_length (headed : Headed env given (some n) m) :
    m.lastPiece = ⟨.string [], some (js "binary")⟩ := by
  have whole : m.chunkedEncoding = false := headed.chunkedEncoding
  rw [lastPiece, if_neg]
  rw [whole]
  simp

theorem sent_chunk (utf8 : IsChunk chunk encoding) :
    wireBytes ways [⟨chunk, encoding⟩] = some chunk.bytes := by
  cases chunk with
  | string text => simp [wireBytes, Piece.sent, sent_utf8 (utf8 text rfl), Data.bytes]
  | buffer => simp [wireBytes, Piece.sent, Data.bytes]

theorem ending_unsent (headed : Headed env given (some n) m)
    (unsent : m.headerSent = false) (output : m.output = []) (lossless : Lossless link)
    (utf8 : ∀ chunk ∈ data, IsChunk chunk encoding) :
    wireBytes ways (OutgoingMessage.produced (m.sends link (m.ending data encoding))) =
      some ((endCharset data).bytes m.headerText ++ endBytes data) := by
  obtain ⟨lines, header, text⟩ := headed.ends_in_crlf
  -- nothing but the flush takes the header along
  have flushed : wireBytes ways (OutgoingMessage.produced (m.send link m.lastPiece)) =
      some (Charset.oneByte.bytes m.headerText ++ []) := by
    have fits : Prefixable ⟨.string [], some (js "binary")⟩ = some [] := rfl
    rw [headed.lastPiece_length, produced_send_text lossless unsent fits, output, nil_append,
      append_nil, append_nil, text, Piece.filled_of_ne (by simp [Data.length, crlf])]
    simp [wireBytes, Piece.sent, sent_binary, Charset.bytes]
  rw [OutgoingMessage.ending]
  obtain ⟨chunk, eq, rfl⟩ | ⟨eq, empty, charset⟩ := given_cases data
  · rw [eq, map_some, getD_some, endBytes, map_some, getD_some]
    by_cases filled : chunk.length = 0
    · simpa [body_empty filled, sends_singleton, endCharset, filled,
        Data.bytes_eq_nil filled] using flushed
    have first : wireBytes ways (OutgoingMessage.produced (m.send link ⟨chunk, encoding⟩)) =
        some (chunk.charset.bytes m.headerText ++ chunk.bytes) :=
      wireBytes_chunk_unsent lossless (utf8 chunk rfl) filled text unsent output
    have rest : wireBytes ways ([m.lastPiece].flatMap Piece.filled) = some [] := by
      rw [headed.lastPiece_length]
      rfl
    rw [headed.body_length filled, singleton_append, produced_sends_cons lossless,
      wireBytes_append first rest, append_nil, endCharset, if_neg filled]
  · simpa [eq, empty, charset, sends_singleton] using flushed

theorem ending_sent (headed : Headed env given (some n) m) (sent : m.headerSent = true)
    (bytes : wireBytes ways (wire ++ m.output) = some (charset.bytes m.headerText))
    (lossless : Lossless link) (utf8 : ∀ chunk ∈ data, IsChunk chunk encoding) :
    wireBytes ways (wire ++ OutgoingMessage.produced (m.sends link (m.ending data encoding))) =
      some (charset.bytes m.headerText ++ endBytes data) := by
  have pieces : wireBytes ways ((m.ending data encoding).flatMap Piece.filled) =
      some (endBytes data) := by
    have last : [m.lastPiece].flatMap Piece.filled = [] := by
      rw [headed.lastPiece_length]
      rfl
    rw [OutgoingMessage.ending, flatMap_append, last, append_nil]
    obtain ⟨chunk, eq, rfl⟩ | ⟨eq, empty, -⟩ := given_cases data
    · rw [eq, map_some, getD_some, endBytes, map_some, getD_some]
      by_cases filled : chunk.length = 0
      · rw [body_empty filled, Data.bytes_eq_nil filled]
        rfl
      have one : Piece.filled ⟨chunk, encoding⟩ = [⟨chunk, encoding⟩] := Piece.filled_of_ne filled
      simpa [headed.body_length filled, one] using sent_chunk (utf8 chunk rfl)
    rw [eq, empty]
    rfl
  rw [produced_sends_sent lossless sent, ← append_assoc, wireBytes_append bytes pieces]

end Phases

end IoJs.Http
