import IoJs.DecodedSize
import IoJs.Http.Decodable

/-!
# The encoding of the header

The header goes out together with the first chunk. Where the two are one string, both are written
in the encoding of the chunk, unless that is exactly `'hex'` or `'base64'`. The size that is
announced is a prediction.
-/

namespace IoJs.Http

open IoJs.Stream IoJs.RegExp IoJs.Buffer IoJs.Library OutgoingMessage List Option

/-! ## Encodings -/

/-- A name that `Buffer.isEncoding` accepts, or none -/
def Known (encoding : Option JSString) : Prop := ∀ name ∈ encoding, isEncoding name = true

/-- The encoding of a name -/
def encodingOf : Option JSString → Encoding
  | some name => parseEncoding name .binary
  | none => .utf8

/-- `'raw'`, which is known to `Buffer.isEncoding` but not to `new Buffer` -/
def IsRaw (encoding : Option JSString) : Prop := encoding.map toLowerCase = some (js "raw")

instance : DecidablePred IsRaw := fun encoding =>
  inferInstanceAs (Decidable (encoding.map toLowerCase = some (js "raw")))

/-- The text goes out at all. -/
def Accepted (way : Way) (encoding : Option JSString) : Prop := way = .writev ∨ ¬IsRaw encoding

instance (way : Way) : DecidablePred (Accepted way) := fun _ => instDecidableOr

section Encodings

variable {way : Way} {encoding : Option JSString} {text : JSString}

theorem encodingOf_raw (raw : IsRaw encoding) : encodingOf encoding = .binary := by
  cases encoding with
  | none => cases raw
  | some name =>
    have raw : toLowerCase name = js "raw" := some.inj raw
    rw [encodingOf, parseEncoding, raw]
    rfl

theorem accepted_of_ne (other : encodingOf encoding ≠ .binary) : Accepted way encoding :=
  .inr fun raw => other (encodingOf_raw raw)

theorem byteLength_known (known : Known encoding) :
    byteLength text encoding = size text (encodingOf encoding) := by
  cases encoding with
  | none => rfl
  | some name => rw [byteLength_some, parseEncoding_default (known name rfl) .utf8 .binary]; rfl

theorem sent_known (known : Known encoding) (accepted : Accepted way encoding)
    (even : encodingOf encoding = .hex → text.length % 2 = 0) :
    ∃ room, (encodingOf encoding = .base64 → base64DecodedSize text ≤ room) ∧
      sent way text encoding = some (Buffer.write text room (encodingOf encoding)) := by
  cases encoding with
  | none =>
    have utf8 : IsUtf8 none := nofun
    exact ⟨0, nofun, sent_utf8 utf8 way text⟩
  | some name =>
    have notRaw : ¬(way = .write ∧ toLowerCase name = js "raw") := by
      rintro ⟨rfl, raw⟩
      obtain same | notRaw := accepted
      · cases same
      · exact notRaw (congrArg some raw)
    have notOdd : ¬(parseEncoding name .binary = .hex ∧ text.length % 2 ≠ 0) := fun odd =>
      odd.2 (even odd.1)
    refine ⟨way.room text name, ?_, ?_⟩
    · intro base64
      cases way with
      | write =>
        have same : size text .base64 = base64DecodedSize text := rfl
        rw [Way.room, byteLength_known known, base64, same]
      | writev =>
        rw [Way.room, base64DecodedSize_eq]
        exact base64DecodedSizeFast_mono (length_unpadded_le text)
    rw [sent_eq way text (known name rfl), if_neg notRaw, if_neg notOdd]
    rfl

theorem sent_eq_none (known : Known encoding)
    (refused : ¬Accepted way encoding ∨ encodingOf encoding = .hex ∧ text.length % 2 ≠ 0) :
    sent way text encoding = none := by
  cases encoding with
  | none =>
    obtain notAccepted | ⟨hex, -⟩ := refused
    · exact absurd (.inr nofun) notAccepted
    · cases hex
  | some name =>
    rw [sent_eq way text (known name rfl)]
    obtain notAccepted | odd := refused
    · rw [if_pos]
      rw [Accepted, not_or, not_not] at notAccepted
      refine ⟨?_, some.inj notAccepted.2⟩
      cases way with
      | write => rfl
      | writev => exact absurd rfl notAccepted.1
    have odd : parseEncoding name .binary = .hex ∧ text.length % 2 ≠ 0 := odd
    split <;> rfl

end Encodings

/-! ## One string -/

/-- A header that is written in an encoding is single-byte text. -/
def Transparent (way : Way) (encoding : Option JSString) (header : JSString) : Prop :=
  match encodingOf encoding with
  | .ascii => Accepted way encoding
  | .binary => Accepted way encoding
  | .utf8 => ∀ unit ∈ header, unit.toNat < 0x80
  | _ => False

section Glued

variable {way : Way} {encoding : Option JSString} {lines text after : JSString}

/-- What is said of a text between two others that are to be single-byte text -/
def Between (way : Way) (encoding : Option JSString) (before text after : JSString)
    (data : List UInt8) : Prop :=
  sent way text encoding = some data ∧ byteLength text encoding = data.length ∧
    sent way (before ++ text ++ after) encoding =
      some (oneByte before ++ data ++ oneByte after)

theorem oneByte_append (left right : JSString) :
    oneByte (left ++ right) = oneByte left ++ oneByte right := map_append

theorem length_oneByte (text : JSString) : (oneByte text).length = text.length := length_map _

theorem between_oneByte (known : Known encoding) (accepted : Accepted way encoding)
    (kind : encodingOf encoding = .ascii ∨ encodingOf encoding = .binary) (before : JSString) :
    Between way encoding before text after (oneByte text) := by
  have sent (text : JSString) : sent way text encoding = some (oneByte text) := by
    have even : encodingOf encoding = .hex → text.length % 2 = 0 := by grind
    obtain ⟨room, -, eq⟩ := sent_known known accepted even
    rw [eq]
    obtain kind | kind := kind
    · rw [kind]
      rfl
    rw [kind]
    rfl
  refine ⟨sent text, ?_, ?_⟩
  · rw [byteLength_known known, length_oneByte]
    obtain kind | kind := kind
    · rw [kind]
      rfl
    rw [kind]
    rfl
  · simp [sent, oneByte_append]

theorem utf8Write_eq_oneByte_iff :
    utf8Write text = oneByte text ↔ ∀ unit ∈ text, unit.toNat < 0x80 := by
  constructor
  · intro eq
    rw [← (length_utf8Write text).2, eq, length_oneByte]
  · exact utf8Write_ascii

section

variable (known : Known encoding)
include known

theorem between_utf8_iff (kind : encodingOf encoding = .utf8) (behind : after = [] ∨ after = crlf) :
    (∃ data, Between way encoding (lines ++ crlf) text after data) ↔
      ∀ unit ∈ lines ++ crlf, unit.toNat < 0x80 := by
  have accepted : Accepted way encoding := accepted_of_ne (by rw [kind]; decide)
  have sent (text : JSString) : sent way text encoding = some (utf8Write text) := by
    obtain ⟨room, -, eq⟩ :=
      sent_known known accepted fun hex => absurd (kind.symm.trans hex) (by decide)
    rw [eq, kind]
    rfl
  have length : byteLength text encoding = (utf8Write text).length := by
    rw [byteLength_known known, kind]
    rfl
  have last : utf8Write (text ++ after) = utf8Write text ++ oneByte after := by
    obtain rfl | rfl := behind
    · rw [append_nil]
      exact (append_nil _).symm
    have whole := bytes_append_crlf .utf8 text []
    rw [append_nil] at whole
    exact whole.trans (append_nil _)
  have whole : utf8Write (lines ++ crlf ++ text ++ after) =
      utf8Write (lines ++ crlf) ++ (utf8Write text ++ oneByte after) := by
    have first := bytes_header .utf8 lines (text ++ after)
    rw [← last, append_assoc]
    exact first
  rw [← utf8Write_eq_oneByte_iff]
  constructor
  · rintro ⟨data, here, -, all⟩
    rw [sent] at here all
    rw [← some.inj here, whole, append_assoc] at all
    exact append_cancel_right (some.inj all)
  intro ascii
  refine ⟨utf8Write text, sent text, length, ?_⟩
  rw [sent, whole, ascii, append_assoc]

theorem not_between_ucs2 (kind : encodingOf encoding = .ucs2)
    (data : List UInt8) : ¬Between way encoding (lines ++ crlf) text after data := by
  have accepted : Accepted way encoding := accepted_of_ne (by rw [kind]; decide)
  have sent (text : JSString) : sent way text encoding = some (text.flatMap unitBytes) := by
    obtain ⟨room, -, eq⟩ :=
      sent_known known accepted fun hex => absurd (kind.symm.trans hex) (by decide)
    rw [eq, kind]
    rfl
  have length (text : JSString) : (text.flatMap unitBytes).length = 2 * text.length := by
    induction text with
    | nil => rfl
    | cons unit text ih =>
      rw [flatMap_cons, length_append, ih, length_cons]
      simp only [unitBytes, length_cons, length_nil]
      omega
  rintro ⟨here, -, all⟩
  rw [sent] at here all
  have lengths := congrArg List.length (some.inj all)
  rw [← some.inj here] at lengths
  simp only [length, length_append, length_oneByte, crlf, length_cons, length_nil] at lengths
  omega

theorem even_of_sent_hex (kind : encodingOf encoding = .hex)
    {bytes : List UInt8} (sent : sent way text encoding = some bytes) :
    text.length % 2 = 0 ∧ hexDecode text = bytes := by
  have even : text.length % 2 = 0 := by
    by_contra odd
    simp [sent_eq_none known (.inr ⟨kind, odd⟩)] at sent
  have accepted : Accepted way encoding := accepted_of_ne (by rw [kind]; decide)
  obtain ⟨room, -, eq⟩ := sent_known known accepted (fun _ => even)
  rw [eq, kind] at sent
  exact ⟨even, some.inj sent⟩

theorem not_between_hex (kind : encodingOf encoding = .hex)
    (data : List UInt8) : ¬Between way encoding (lines ++ crlf) text after data := by
  rintro ⟨-, -, all⟩
  obtain ⟨-, decoded⟩ := even_of_sent_hex known kind all
  have other : hex2bin 0x0D = none := rfl
  have short := length_hexDecode_append_le other lines (0x0A :: (text ++ after))
  have split : lines ++ crlf ++ text ++ after = lines ++ 0x0D :: 0x0A :: (text ++ after) := by
    simp [crlf]
  rw [split] at decoded
  rw [decoded] at short
  simp only [length_append, length_oneByte, crlf, length_cons] at short
  omega

end

theorem sent_base64 (way : Way) (known : Known encoding) (kind : encodingOf encoding = .base64)
    (text : JSString) :
    ∃ room, base64DecodedSize text ≤ room ∧
      sent way text encoding = some (base64Decode room text) := by
  have accepted : Accepted way encoding := accepted_of_ne (by rw [kind]; decide)
  obtain ⟨room, enough, eq⟩ :=
    sent_known known accepted fun hex => absurd (kind.symm.trans hex) (by decide)
  rw [kind] at eq
  exact ⟨room, enough kind, eq⟩

theorem not_between_base64 (known : Known encoding) (kind : encodingOf encoding = .base64)
    (behind : after = [] ∨ after = crlf) (data : List UInt8) :
    ¬Between way encoding (lines ++ crlf) text after data := by
  rintro ⟨here, -, all⟩
  obtain ⟨room, enough, sent⟩ := sent_base64 way known kind text
  obtain ⟨room', enough', sent'⟩ := sent_base64 way known kind (lines ++ crlf ++ text ++ after)
  rw [here] at sent
  rw [all] at sent'
  have length := congrArg List.length (some.inj sent)
  have length' := congrArg List.length (some.inj sent')
  rw [length_base64Decode_of_le enough] at length
  rw [length_base64Decode_of_le enough'] at length'
  have none : crlf.countP isBase64Digit = 0 := by decide
  have noneBehind : after.countP isBase64Digit = 0 := by
    obtain rfl | rfl := behind
    · rfl
    · exact none
  have count := countP_le_length (p := isBase64Digit) (l := lines)
  simp only [countP_append, none, noneBehind, length_append, length_oneByte, length]
    at length'
  have two : crlf.length = 2 := rfl
  omega

theorem between_iff (known : Known encoding) (behind : after = [] ∨ after = crlf) :
    (∃ data, Between way encoding (lines ++ crlf) text after data) ↔
      Transparent way encoding (lines ++ crlf) := by
  rw [Transparent.eq_def]
  cases kind : encodingOf encoding with
  | ascii =>
    have accepted : Accepted way encoding := accepted_of_ne (by rw [kind]; decide)
    exact ⟨fun _ => accepted, fun _ => ⟨_, between_oneByte known accepted (.inl kind) _⟩⟩
  | utf8 => exact between_utf8_iff known kind behind
  | base64 => exact iff_of_false (not_exists.mpr (not_between_base64 known kind behind)) id
  | ucs2 => exact iff_of_false (not_exists.mpr (not_between_ucs2 known kind)) id
  | binary =>
    constructor
    · rintro ⟨data, here, -⟩
      by_contra refused
      simp [sent_eq_none known (.inl refused)] at here
    · exact fun accepted => ⟨_, between_oneByte known accepted (.inr kind) _⟩
  | hex => exact iff_of_false (not_exists.mpr (not_between_hex known kind)) id

end Glued

/-! ## Two strings -/

section Apart

variable {way : Way} {text : JSString}

theorem known_hex : Known (some (js "hex")) := by
  intro name mem
  cases mem
  decide

theorem known_base64 : Known (some (js "base64")) := by
  intro name mem
  cases mem
  decide

theorem alone_hex_iff : (∃ data, sent way text (some (js "hex")) = some data ∧
      byteLength text (some (js "hex")) = data.length) ↔
    text.length % 2 = 0 ∧ ∀ ch ∈ text, (hex2bin ch).isSome := by
  constructor
  · rintro ⟨data, sent, size⟩
    obtain ⟨even, rfl⟩ := even_of_sent_hex known_hex rfl sent
    exact ⟨even, (length_hexDecode_iff even).mp size.symm⟩
  rintro ⟨even, digits⟩
  have accepted : Accepted way (some (js "hex")) := accepted_of_ne (by decide)
  obtain ⟨room, -, sent⟩ := sent_known known_hex accepted fun _ => even
  exact ⟨_, sent, ((length_hexDecode_iff even).mpr digits).symm⟩

theorem alone_base64_iff : (∃ data, sent way text (some (js "base64")) = some data ∧
    byteLength text (some (js "base64")) = data.length) ↔ IsBase64 text := by
  have length : byteLength text (some (js "base64")) = base64DecodedSize text := rfl
  obtain ⟨room, enough, sent⟩ := sent_base64 way known_base64 rfl text
  rw [length, ← base64DecodedSize_eq_length_iff enough, sent]
  constructor
  · simp
  · simp

end Apart

/-! ## The first chunk -/

/-- A message that has a header, and has sent nothing -/
structure Stored (lines : JSString) (m : OutgoingMessage) : Prop where
  header : m.header = some (lines ++ crlf)
  headerSent : m.headerSent = false
  output : m.output = []
  hasBody : m.hasBody = true
  unfinished : m.finished = false

/-- The bytes of a chunk, when it goes out alone -/
def Data.sent (way : Way) (encoding : Option JSString) (chunk : Data) : Option (List UInt8) :=
  Piece.sent (fun _ => way) { data := chunk, encoding }

/-- The header in front of the chunk is single-byte text, and the length that is announced is that
of the chunk. -/
def SingleByte (way : Way) (encoding : Option JSString) (chunk : Data) (m : OutgoingMessage)
    (pieces : List Piece) : Prop :=
  ∃ data, chunk.sent way encoding = some data ∧
    OutgoingMessage.byteLength encoding chunk = data.length ∧
    wireBytes (fun _ => way) pieces = some (oneByte m.headerText ++ data)

/-- The header and the line with the size are single-byte text, the size is that of the chunk, and
it is not the last chunk. -/
def SingleByteChunk (way : Way) (encoding : Option JSString) (chunk : Data) (m : OutgoingMessage)
    (pieces : List Piece) (rest : List UInt8) : Prop :=
  ∃ data, chunk.sent way encoding = some data ∧
    OutgoingMessage.byteLength encoding chunk = data.length ∧ data ≠ [] ∧
    wireBytes (fun _ => way) pieces =
      some (oneByte (m.headerText ++ hex data.length ++ crlf) ++ data ++ lineEnd ++ rest)

/-- The encoding fits the header and the chunk. -/
def Fitting (way : Way) (encoding : Option JSString) (header : JSString) : Data → Prop
  | .buffer _ => True
  | .string text =>
    if encoding = some (js "hex") then text.length % 2 = 0 ∧ ∀ ch ∈ text, (hex2bin ch).isSome
    else if encoding = some (js "base64") then IsBase64 text
    else Transparent way encoding header

/-- Base64 that decodes to something -/
def Decodable (encoding : Option JSString) : Data → Prop
  | .buffer _ => True
  | .string text => encoding = some (js "base64") → 2 ≤ (unpadded text).length

section Message

variable {way : Way} {link : Option Link} {lines : JSString} {m : OutgoingMessage} {chunk : Data}
  {encoding : Option JSString} {implicitHeader : OutgoingMessage → OutgoingMessage × List Piece}
variable {text : JSString}

theorem Stored.headerText (stored : Stored lines m) : m.headerText = lines ++ crlf := by
  rw [OutgoingMessage.headerText, stored.header]
  rfl

theorem Stored.write_eq (stored : Stored lines m) (chunk : Data) (encoding : Option JSString) :
    m.write link implicitHeader chunk encoding = m.sends link (m.body chunk encoding) := by
  have headed : m.ensureHeader implicitHeader = (m, []) := by simp [ensureHeader, stored.header]
  rw [OutgoingMessage.write_eq chunk encoding stored.unfinished]
  simp [headed]

theorem wireBytes_singleton (ways : Piece → Way) (piece : Piece) :
    wireBytes ways [piece] = piece.sent ways := by
  simp [wireBytes]

theorem wireBytes_pair (header : JSString) (piece : Piece) :
    wireBytes (fun _ => way) [⟨.string header, some (js "binary")⟩, piece] =
      (piece.sent fun _ => way).map (oneByte header ++ ·) := by
  have header : Piece.sent (fun _ => way) ⟨.string header, some (js "binary")⟩ =
      some (oneByte header) := sent_binary way header
  simp [wireBytes, header]

theorem Stored.produced_apart (stored : Stored lines m) (lossless : Lossless link)
    (apart : Prefixable ⟨chunk, encoding⟩ = none) (filled : chunk.length ≠ 0) :
    produced (m.send link ⟨chunk, encoding⟩) =
      [⟨.string m.headerText, some (js "binary")⟩, ⟨chunk, encoding⟩] := by
  rw [produced_send_other lossless stored.headerSent apart, stored.output, nil_append]
  exact congrArg _ (Piece.filled_of_ne filled)

theorem Stored.produced_glued (stored : Stored lines m) (lossless : Lossless link)
    (glued : Prefixable ⟨.string text, encoding⟩ = some text) :
    produced (m.send link ⟨.string text, encoding⟩) =
      [⟨.string (m.headerText ++ text), encoding⟩] := by
  simpa [produced_send_text lossless stored.headerSent glued, stored.output,
    stored.headerText] using Piece.filled_of_ne (by simp [Data.length, crlf])

theorem prefixable_iff (text : JSString) : Prefixable ⟨.string text, encoding⟩ =
      if encoding ≠ some (js "hex") ∧ encoding ≠ some (js "base64") then some text else none := rfl

theorem Stored.body_whole (stored : Stored lines m) (whole : m.chunkedEncoding = false)
    (filled : chunk.length ≠ 0) : m.body chunk encoding = [⟨chunk, encoding⟩] := by
  simp [OutgoingMessage.body, whole, stored.hasBody, filled]

theorem Stored.body_chunked (stored : Stored lines m) (chunked : m.chunkedEncoding = true)
    (filled : chunk.length ≠ 0) : m.body chunk encoding = frame chunk encoding := by
  simp [OutgoingMessage.body, chunked, stored.hasBody, filled]

theorem singleByte_apart_iff : SingleByte way encoding chunk m
      [⟨.string m.headerText, some (js "binary")⟩, ⟨chunk, encoding⟩] ↔
    ∃ data, chunk.sent way encoding = some data ∧
      OutgoingMessage.byteLength encoding chunk = data.length := by
  rw [SingleByte, wireBytes_pair]
  constructor
  · rintro ⟨data, sent, length, -⟩
    exact ⟨data, sent, length⟩
  rintro ⟨data, sent, length⟩
  refine ⟨data, sent, length, ?_⟩
  have sent : Piece.sent (fun _ => way) ⟨chunk, encoding⟩ = some data := sent
  rw [sent]
  rfl

/-- **When the header is single-byte text and the length is right**, where the length is announced
for the whole body -/
theorem Stored.singleByte_iff (stored : Stored lines m) (lossless : Lossless link)
    (known : Known encoding) (whole : m.chunkedEncoding = false) (filled : chunk.length ≠ 0) :
    SingleByte way encoding chunk m
        (produced (m.write link implicitHeader chunk encoding)) ↔
      Fitting way encoding m.headerText chunk := by
  rw [stored.write_eq, stored.body_whole whole filled, sends_singleton]
  cases chunk with
  | buffer bytes =>
    rw [stored.produced_apart lossless rfl filled, singleByte_apart_iff]
    exact iff_of_true ⟨bytes, rfl, rfl⟩ trivial
  | string text =>
    rw [Fitting]
    by_cases hex : encoding = some (js "hex")
    · subst hex
      rw [stored.produced_apart lossless rfl filled, singleByte_apart_iff, if_pos rfl]
      exact alone_hex_iff
    rw [if_neg hex]
    by_cases base64 : encoding = some (js "base64")
    · subst base64
      rw [stored.produced_apart lossless rfl filled, singleByte_apart_iff, if_pos rfl]
      exact alone_base64_iff
    rw [if_neg base64]
    have glued : Prefixable ⟨.string text, encoding⟩ = some text := by
      rw [prefixable_iff, if_pos ⟨hex, base64⟩]
    have iff : (∃ data, Between way encoding (lines ++ crlf) text [] data) ↔
        Transparent way encoding (lines ++ crlf) := between_iff known (.inl rfl)
    have none : oneByte [] = [] := rfl
    rw [stored.produced_glued lossless glued, SingleByte, wireBytes_singleton, stored.headerText,
      ← iff]
    simp only [Between, append_nil, none]
    rfl

/-! ### In chunked coding -/

theorem Stored.produced_frame (stored : Stored lines m) (lossless : Lossless link)
    (filled : chunk.length ≠ 0) (n : Nat) :
    produced
        (m.sends link [sizePiece n, crlfPiece, ⟨chunk, encoding⟩, crlfPiece]) =
      [⟨.string (m.headerText ++ hex n), some (js "binary")⟩, crlfPiece, ⟨chunk, encoding⟩,
        crlfPiece] := by
  have first : produced (m.send link ⟨.string (hex n), some (js "binary")⟩) =
      [⟨.string (m.headerText ++ hex n), some (js "binary")⟩] := stored.produced_glued lossless rfl
  have line : crlfPiece.filled = [crlfPiece] := rfl
  have data : Piece.filled ⟨chunk, encoding⟩ = [⟨chunk, encoding⟩] := Piece.filled_of_ne filled
  rw [sizePiece, produced_sends_cons lossless, first]
  simp [line, data]

theorem singleByteChunk_apart_iff {n : Nat} (size : OutgoingMessage.byteLength encoding chunk = n) :
    SingleByteChunk way encoding chunk m
        [⟨.string (m.headerText ++ hex n), some (js "binary")⟩, crlfPiece, ⟨chunk, encoding⟩,
          crlfPiece] [] ↔
      ∃ data, chunk.sent way encoding = some data ∧
        OutgoingMessage.byteLength encoding chunk = data.length ∧ data ≠ [] := by
  constructor
  · rintro ⟨data, sent, length, filled, -⟩
    exact ⟨data, sent, length, filled⟩
  rintro ⟨data, sent, length, filled⟩
  refine ⟨data, sent, length, filled, ?_⟩
  have header : wireBytes (fun _ => way)
      [⟨.string (m.headerText ++ hex n), some (js "binary")⟩] =
      some (oneByte (m.headerText ++ hex n)) := by
    rw [wireBytes_singleton]
    exact sent_binary way _
  have line : wireBytes (fun _ => way) [crlfPiece] = some lineEnd := rfl
  have body : wireBytes (fun _ => way) [⟨chunk, encoding⟩] = some data := by
    rw [wireBytes_singleton]
    exact sent
  have all := wireBytes_append header (wireBytes_append line (wireBytes_append body line))
  have crlf_ : oneByte crlf = lineEnd := rfl
  rw [← length, size, oneByte_append, crlf_]
  simpa using all

theorem decodedSize_pos_iff (text : JSString) :
    0 < base64DecodedSize text ↔ 2 ≤ (unpadded text).length := by
  rw [base64DecodedSize_eq, base64DecodedSizeFast_eq]
  split <;> omega

theorem size_pos_of_transparent {header : JSString}
    (transparent : Transparent way encoding header) (filled : text.length ≠ 0) :
    0 < size text (encodingOf encoding) := by
  have least := (length_utf8Write text).1
  rw [Transparent.eq_def] at transparent
  cases kind : encodingOf encoding with
  | ascii | binary => exact Nat.pos_of_ne_zero filled
  | utf8 =>
    rw [size]
    omega
  | base64 | ucs2 | hex => rw [kind] at transparent; exact transparent.elim

theorem ascii_append_hex (n : Nat) : (∀ unit ∈ lines ++ crlf ++ hex n ++ crlf, unit.toNat < 0x80) ↔
    ∀ unit ∈ lines ++ crlf, unit.toNat < 0x80 := by
  have size : ∀ unit ∈ hex n, unit.toNat < 0x80 := by
    intro unit mem
    have printable := printable_hex n unit mem
    omega
  constructor
  · intro all
    exact (forall_mem_append.mp (forall_mem_append.mp all).1).1
  · grind

theorem transparent_append_hex (n : Nat) :
    Transparent way encoding (lines ++ crlf ++ hex n ++ crlf) ↔
      Transparent way encoding (lines ++ crlf) := by
  rw [Transparent.eq_def, Transparent.eq_def]
  cases encodingOf encoding with
  | utf8 => exact ascii_append_hex n
  | _ => exact Iff.rfl

/-- The names for which `write` sends a string in four pieces -/
def SentApart (encoding : Option JSString) : Prop :=
  encoding = some (js "hex") ∨ encoding = some (js "base64") ∨ encoding = some (js "binary")

theorem frame_apart (apart : SentApart encoding) : frame (.string text) encoding =
    [sizePiece (byteLength text encoding), crlfPiece, ⟨.string text, encoding⟩,
      crlfPiece] := by
  rw [frame.eq_def]
  simp only
  rw [if_neg]
  · rfl
  rintro ⟨hex, base64, binary⟩
  obtain same | same | same := apart
  · exact hex same
  · exact base64 same
  · exact binary same

section

variable (stored : Stored lines m) (lossless : Lossless link)
include stored lossless

theorem Stored.singleByteChunk_apart_iff
    (chunked : m.chunkedEncoding = true) (apart : SentApart encoding) (filled : text.length ≠ 0) :
    SingleByteChunk way encoding (.string text) m
        (produced (m.write link implicitHeader (.string text) encoding)) [] ↔
      (∃ data, sent way text encoding = some data ∧
        byteLength text encoding = data.length) ∧ 0 < byteLength text encoding := by
  have filled : (Data.string text).length ≠ 0 := filled
  have size : OutgoingMessage.byteLength encoding (.string text) =
      byteLength text encoding := rfl
  rw [stored.write_eq, stored.body_chunked chunked filled, frame_apart apart,
    stored.produced_frame lossless filled, Http.singleByteChunk_apart_iff size]
  constructor
  · rintro ⟨data, sent, length, some_⟩
    refine ⟨⟨data, sent, length⟩, ?_⟩
    have length : byteLength text encoding = data.length := length
    rw [length]
    exact length_pos_iff.mpr some_
  rintro ⟨⟨data, sent, length⟩, some_⟩
  rw [length] at some_
  exact ⟨data, sent, length, length_pos_iff.mp some_⟩

theorem Stored.singleByteChunk_glued_iff
    (known : Known encoding) (chunked : m.chunkedEncoding = true)
    (glued : ¬SentApart encoding) (filled : text.length ≠ 0) :
    SingleByteChunk way encoding (.string text) m
        (produced (m.write link implicitHeader (.string text) encoding)) [] ↔
      Transparent way encoding m.headerText := by
  have filled' : (Data.string text).length ≠ 0 := filled
  rw [SentApart, not_or, not_or] at glued
  have frame : frame (.string text) encoding =
      [⟨.string (hex (byteLength text encoding) ++ crlf ++ text ++ crlf), encoding⟩] := by
    rw [frame.eq_def]
    simp only
    rw [if_pos glued]
    rfl
  have fits : Prefixable ⟨.string (hex (byteLength text encoding) ++ crlf ++ text ++ crlf),
      encoding⟩ = some (hex (byteLength text encoding) ++ crlf ++ text ++ crlf) := by
    rw [prefixable_iff, if_pos ⟨glued.1, glued.2.1⟩]
  have iff : (∃ data, Between way encoding
      (lines ++ crlf ++ hex (byteLength text encoding) ++ crlf) text crlf data) ↔
      Transparent way encoding
        (lines ++ crlf ++ hex (byteLength text encoding) ++ crlf) :=
    between_iff known (.inr rfl)
  have all : lines ++ crlf ++ (hex (byteLength text encoding) ++ crlf ++ text ++ crlf) =
      lines ++ crlf ++ hex (byteLength text encoding) ++ crlf ++ text ++ crlf := by
    simp
  have crlf_ : oneByte crlf = lineEnd := rfl
  rw [stored.write_eq, stored.body_chunked chunked filled', frame, sends_singleton,
    stored.produced_glued lossless fits, SingleByteChunk, wireBytes_singleton,
    stored.headerText, all]
  constructor
  · rintro ⟨data, sent, length, -, bytes⟩
    rw [← transparent_append_hex, ← iff]
    rw [← length, ← crlf_, append_nil] at bytes
    exact ⟨data, sent, length, bytes⟩
  intro transparent
  have some_ := size_pos_of_transparent transparent filled
  rw [← transparent_append_hex (byteLength text encoding), ← iff] at transparent
  obtain ⟨data, sent, length, bytes⟩ := transparent
  rw [← byteLength_known known, length] at some_
  refine ⟨data, sent, length, length_pos_iff.mp some_, ?_⟩
  rw [← length, ← crlf_, append_nil]
  exact bytes

/-- **When the header and the size are single-byte text and the size is right**, in chunked
coding -/
theorem Stored.singleByteChunk_iff
    (known : Known encoding) (chunked : m.chunkedEncoding = true) (filled : chunk.length ≠ 0) :
    SingleByteChunk way encoding chunk m
        (produced (m.write link implicitHeader chunk encoding)) [] ↔
      Fitting way encoding m.headerText chunk ∧ Decodable encoding chunk := by
  cases chunk with
  | buffer bytes =>
    have size : OutgoingMessage.byteLength encoding (.buffer bytes) = bytes.length := rfl
    rw [stored.write_eq, stored.body_chunked chunked filled, frame_buffer,
      stored.produced_frame lossless filled, Http.singleByteChunk_apart_iff size]
    have some_ : bytes ≠ [] := fun none => filled (by rw [none]; rfl)
    exact iff_of_true ⟨bytes, rfl, rfl, some_⟩ ⟨trivial, trivial⟩
  | string text =>
    rw [Fitting, Decodable]
    by_cases hex : encoding = some (js "hex")
    · subst hex
      rw [stored.singleByteChunk_apart_iff lossless chunked (.inl rfl) filled, alone_hex_iff,
        if_pos rfl]
      have length : byteLength text (some (js "hex")) = text.length / 2 := rfl
      have filled : text.length ≠ 0 := filled
      have other : some (js "hex") ≠ some (js "base64") := by decide
      constructor
      · grind
      · grind
    rw [if_neg hex]
    by_cases base64 : encoding = some (js "base64")
    · subst base64
      have length : byteLength text (some (js "base64")) = base64DecodedSize text := rfl
      rw [stored.singleByteChunk_apart_iff lossless chunked (.inr (.inl rfl)) filled,
        alone_base64_iff, if_pos rfl, length, decodedSize_pos_iff]
      exact and_congr_right fun _ => ⟨fun long _ => long, fun long => long rfl⟩
    rw [if_neg base64]
    have noPadding : (encoding = some (js "base64") → 2 ≤ (unpadded text).length) :=
      fun same => absurd same base64
    rw [and_iff_left noPadding]
    by_cases binary : encoding = some (js "binary")
    · subst binary
      rw [stored.singleByteChunk_apart_iff lossless chunked (.inr (.inr rfl)) filled]
      have accepted : Transparent way (some (js "binary")) m.headerText := .inr (by decide)
      have length : (oneByte text).length = text.length := length_oneByte text
      refine iff_of_true ⟨⟨oneByte text, sent_binary way text, length.symm⟩, ?_⟩ accepted
      exact Nat.pos_of_ne_zero filled
    refine stored.singleByteChunk_glued_iff lossless known chunked ?_ filled
    simpa [SentApart] using ⟨hex, base64, binary⟩

end

/-! ### With `end` -/

theorem wireBytes_append_iff {ways : Piece → Way} {left right : List Piece}
    {bytes bytes' : List UInt8} (second : wireBytes ways right = some bytes') :
    wireBytes ways (left ++ right) = some (bytes ++ bytes') ↔ wireBytes ways left = some bytes := by
  constructor
  · intro all
    cases first : wireBytes ways left with
    | some here =>
      rw [wireBytes_append first second] at all
      exact congrArg some (append_cancel_right (some.inj all))
    | none =>
      have lost : wireBytes ways (left ++ right) = none := by
        clear all
        induction left with
        | nil => cases first
        | cons piece left ih =>
          rw [wireBytes] at first
          rw [cons_append, wireBytes]
          cases sent : piece.sent ways with
          | none => rfl
          | some here =>
            rw [sent, bind_some, map_eq_none_iff] at first
            simp [ih first]
      simp [lost] at all
  intro first
  exact wireBytes_append first second

theorem given_filled (filled : chunk.length ≠ 0) : OutgoingMessage.given (some chunk) =
    some chunk := by
  cases chunk with
  | buffer => rfl
  | string text =>
    cases text with
    | nil => exact absurd rfl filled
    | cons => rfl

theorem Stored.produced_end (stored : Stored lines m) (lossless : Lossless link)
    (filled : chunk.length ≠ 0) :
    produced (m.end_ link implicitHeader (some chunk) encoding) =
      produced (m.write link implicitHeader chunk encoding) ++
        m.lastPiece.filled := by
  have length : m.withLength (some chunk) encoding = m := by simp [withLength, stored.header]
  have headed : (m.withLength (some chunk) encoding).ensureHeader implicitHeader = (m, []) := by
    simp [length, ensureHeader, stored.header]
  have pieces : ∃ piece rest, m.body chunk encoding = piece :: rest := by
    cases chunked : m.chunkedEncoding with
    | false => exact ⟨_, _, stored.body_whole chunked filled⟩
    | true =>
      rw [stored.body_chunked chunked filled]
      cases chunk with
      | buffer bytes => exact ⟨_, _, frame_buffer bytes encoding⟩
      | string text =>
        by_cases apart : SentApart encoding
        · exact ⟨_, _, frame_apart apart⟩
        rw [SentApart, not_or, not_or] at apart
        rw [frame.eq_def]
        simp only
        rw [if_pos apart]
        exact ⟨_, _, rfl⟩
  have isSome :
    ((m.withLength (some chunk) encoding).ensureHeader implicitHeader).1.header.isSome := by
    rw [headed, stored.header]
    rfl
  have unfinished :
      ((m.withLength (some chunk) encoding).ensureHeader implicitHeader).1.finished = false := by
    rw [headed]
    exact stored.unfinished
  obtain ⟨piece, rest, body⟩ := pieces
  rw [stored.write_eq,
    OutgoingMessage.end_eq (some chunk) encoding stored.unfinished isSome unfinished]
  simp only [headed, ending, given_filled filled, map_some, getD_some, body,
    cons_append, nil_append]
  have all : produced (m.sends link (piece :: (rest ++ [m.lastPiece]))) =
      produced (m.send link piece) ++
        (rest ++ [m.lastPiece]).flatMap Piece.filled := produced_sends_cons lossless _
  have write : produced (m.sends link (piece :: rest)) =
      produced (m.send link piece) ++ rest.flatMap Piece.filled :=
    produced_sends_cons lossless rest
  rw [flatMap_append, flatMap_singleton, ← append_assoc, ← write] at all
  exact all

/-- What the last piece is on the wire -/
def lastBytes (m : OutgoingMessage) : List UInt8 :=
  if m.chunkedEncoding then oneByte (js "0" ++ crlf ++ m.trailer ++ crlf) else []

theorem Stored.wireBytes_lastPiece (stored : Stored lines m) (ways : Piece → Way) :
    wireBytes ways m.lastPiece.filled = some (lastBytes m) := by
  rw [lastPiece, lastBytes, stored.hasBody]
  cases m.chunkedEncoding with
  | false => rfl
  | true =>
    rw [if_pos ⟨rfl, rfl⟩, if_pos rfl, Piece.filled_of_ne (by simp [Data.length, crlf]),
      wireBytes_singleton]
    exact sent_binary _ _

theorem Stored.singleByteChunk_end_iff (stored : Stored lines m) (lossless : Lossless link)
    (known : Known encoding) (chunked : m.chunkedEncoding = true) (filled : chunk.length ≠ 0) :
    SingleByteChunk way encoding chunk m
        (produced (m.end_ link implicitHeader (some chunk) encoding)) (lastBytes m) ↔
      Fitting way encoding m.headerText chunk ∧ Decodable encoding chunk := by
  have write : SingleByteChunk way encoding chunk m
      (produced (m.write link implicitHeader chunk encoding)) [] ↔ _ :=
    stored.singleByteChunk_iff lossless known chunked filled
  rw [← write, SingleByteChunk, SingleByteChunk, stored.produced_end lossless filled]
  simp only [wireBytes_append_iff (stored.wireBytes_lastPiece _), append_nil]

theorem Stored.singleByte_end_iff (stored : Stored lines m) (lossless : Lossless link)
    (known : Known encoding) (whole : m.chunkedEncoding = false) (filled : chunk.length ≠ 0) :
    SingleByte way encoding chunk m
        (produced (m.end_ link implicitHeader (some chunk) encoding)) ↔
      Fitting way encoding m.headerText chunk := by
  have nothing : lastBytes m = [] := by
    rw [lastBytes, whole]
    rfl
  have last := stored.wireBytes_lastPiece (fun _ => way)
  rw [nothing] at last
  have write : SingleByte way encoding chunk m
      (produced (m.write link implicitHeader chunk encoding)) ↔ _ :=
    stored.singleByte_iff lossless known whole filled
  have same (pieces : List Piece) (bytes : List UInt8) :
      wireBytes (fun _ => way) (pieces ++ m.lastPiece.filled) = some bytes ↔
        wireBytes (fun _ => way) pieces = some bytes := by
    have iff : wireBytes (fun _ => way) (pieces ++ m.lastPiece.filled) = some (bytes ++ []) ↔
        wireBytes (fun _ => way) pieces = some bytes := wireBytes_append_iff last
    rw [append_nil] at iff
    exact iff
  rw [← write, SingleByte, SingleByte, stored.produced_end lossless filled]
  simp only [same]

theorem Fresh.end_stored {env : Environment} (fresh : Fresh env (.implicit m) m [])
    (unexpected : expects env ((ResponseHead.implicit m).fields env m) = false)
    (lossless : Lossless link) (filled : chunk.length ≠ 0) :
    ∃ lines m', Stored lines m' ∧ m'.chunkedEncoding = false ∧
      HeaderOf env ((ResponseHead.implicit m).lines env m)
        (some (OutgoingMessage.byteLength encoding chunk)) m'.headerText ∧
      m.end_ link (OutgoingMessage.implicitHeader env link) (some chunk) encoding =
        m'.end_ link (OutgoingMessage.implicitHeader env link) (some chunk) encoding := by
  have measured : m.withLength (some chunk) encoding =
      { m with contentLength := some (OutgoingMessage.byteLength encoding chunk) } := by
    rw [withLength, if_pos (by rw [fresh.unframed.header]; rfl), given_filled filled]
    rfl
  obtain ⟨headed, sent⟩ := fresh.store lossless (OutgoingMessage.byteLength encoding chunk)
  rw [unexpected, if_neg (by decide)] at sent
  obtain ⟨unsent, nothing, output⟩ := sent
  rw [← measured] at headed unsent nothing output
  generalize first : (m.withLength (some chunk) encoding).ensureHeader
    (OutgoingMessage.implicitHeader env link) = result at headed unsent nothing output
  obtain ⟨lines, header, text⟩ := headed.ends_in_crlf
  obtain ⟨header', eq, isHeader⟩ := headed.header
  have stored : Stored lines result.1 := ⟨header, unsent, output, headed.hasBody, headed.unfinished⟩
  refine ⟨lines, result.1, stored, headed.chunkedEncoding, ?_, ?_⟩
  · grind
  have isSome : result.1.header.isSome := by simp [header]
  rw [OutgoingMessage.end_eq (some chunk) encoding fresh.unframed.unfinished
    (by rw [first]; exact isSome) (by rw [first]; exact headed.unfinished), headed.end_eq]
  simp [first, nothing]

theorem Stored.headerText_end (stored : Stored lines m) (data : Option Data)
    (encoding : Option JSString) :
    (m.end_ link implicitHeader data encoding).1.headerText = m.headerText := by
  have headed : (m.withLength data encoding).ensureHeader implicitHeader = (m, []) := by
    have some_ : ¬m.header.isNone = true := by simp [stored.header]
    simp [withLength, some_, ensureHeader]
  have isSome : ((m.withLength data encoding).ensureHeader implicitHeader).1.header.isSome := by
    rw [headed, stored.header]
    rfl
  have unfinished :
      ((m.withLength data encoding).ensureHeader implicitHeader).1.finished = false := by
    rw [headed]
    exact stored.unfinished
  rw [OutgoingMessage.end_eq data encoding stored.unfinished isSome unfinished]
  simp only [headed]
  exact headerText_sends _

/-- **When the header and the size of the first chunk are single-byte text, and the size is that of
the chunk**, for each encoding: in chunked coding, with a length that has been announced, and with
the length that `end` announces. -/
theorem first_chunk_single_byte_iff (stored : Stored lines m) (lossless : Lossless link)
    (known : Known encoding) :
    (chunk.length = 0 → m.write link implicitHeader chunk encoding = (m, [])) ∧
    (chunk.length ≠ 0 → m.chunkedEncoding = true → (SingleByteChunk way encoding chunk m
          (produced (m.write link implicitHeader chunk encoding)) [] ↔
        Fitting way encoding m.headerText chunk ∧ Decodable encoding chunk) ∧
      (SingleByteChunk way encoding chunk m
          (produced (m.end_ link implicitHeader (some chunk) encoding))
          (lastBytes m) ↔
        Fitting way encoding m.headerText chunk ∧ Decodable encoding chunk)) ∧
    (chunk.length ≠ 0 → m.chunkedEncoding = false → (SingleByte way encoding chunk m
          (produced (m.write link implicitHeader chunk encoding)) ↔
        Fitting way encoding m.headerText chunk) ∧
      (SingleByte way encoding chunk m
          (produced (m.end_ link implicitHeader (some chunk) encoding)) ↔
        Fitting way encoding m.headerText chunk)) ∧
    ∀ (env : Environment) (response : OutgoingMessage), Fresh env (.implicit response) response [] →
      expects env ((ResponseHead.implicit response).fields env response) = false →
      chunk.length ≠ 0 →
      let r := response.end_ link (OutgoingMessage.implicitHeader env link) (some chunk) encoding
      HeaderOf env ((ResponseHead.implicit response).lines env response)
          (some (OutgoingMessage.byteLength encoding chunk)) r.1.headerText ∧
        (SingleByte way encoding chunk r.1 (produced r) ↔
          Fitting way encoding r.1.headerText chunk) := by
  refine ⟨?_, ?_, ?_, ?_⟩
  · intro empty
    rw [stored.write_eq, body_empty empty]
    rfl
  · intro filled chunked
    exact ⟨stored.singleByteChunk_iff lossless known chunked filled,
      stored.singleByteChunk_end_iff lossless known chunked filled⟩
  · intro filled whole
    exact ⟨stored.singleByte_iff lossless known whole filled,
      stored.singleByte_end_iff lossless known whole filled⟩
  intro env response fresh unexpected filled
  obtain ⟨lines, m', stored', whole, isHeader, same⟩ :
      ∃ lines m', Stored lines m' ∧ m'.chunkedEncoding = false ∧
        HeaderOf env ((ResponseHead.implicit response).lines env response)
          (some (OutgoingMessage.byteLength encoding chunk)) m'.headerText ∧
        response.end_ link (OutgoingMessage.implicitHeader env link) (some chunk) encoding =
          m'.end_ link (OutgoingMessage.implicitHeader env link) (some chunk) encoding :=
    fresh.end_stored unexpected lossless filled
  have text : (m'.end_ link (OutgoingMessage.implicitHeader env link) (some chunk)
      encoding).1.headerText = m'.headerText := stored'.headerText_end (some chunk) encoding
  simp only [same, text]
  refine ⟨isHeader, ?_⟩
  have iff : SingleByte way encoding chunk m' (produced
      (m'.end_ link (OutgoingMessage.implicitHeader env link) (some chunk) encoding)) ↔
      Fitting way encoding m'.headerText chunk :=
    stored'.singleByte_end_iff lossless known whole filled
  simp [← iff, SingleByte, text]

end Message

/-- A response with a header that is not ASCII -/
def sample : OutgoingMessage :=
  ((serverResponse false true).writeHead .ascii none 200 none [(js "A", .one [0xE9])]).1

theorem stored_sample : ∃ lines, Stored lines sample := by
  refine ⟨sample.headerText.dropLast.dropLast, ?_, ?_, ?_, ?_, ?_⟩
  all_goals decide +kernel

/-- Single-byte text in a single-byte encoding, and base64 as it should be -/
theorem first_chunk_single_byte_sample :
    SingleByteChunk .write (some (js "ASCII")) (.string [0xE9]) sample
      (produced (sample.write none (fun m => (m, [])) (.string [0xE9])
        (some (js "ASCII")))) [] ∧
    SingleByteChunk .writev (some (js "base64")) (.string (js "YWI=")) sample
      (produced (sample.write none (fun m => (m, [])) (.string (js "YWI="))
        (some (js "base64")))) [] := by
  obtain ⟨lines, stored⟩ := stored_sample
  have chunked : sample.chunkedEncoding = true := by decide +kernel
  have known : Known (some (js "ASCII")) := by
    intro name mem
    cases mem
    decide
  constructor
  · refine ((first_chunk_single_byte_iff stored Lossless.none known).2.1 (by decide) chunked).1.mpr
      ?_
    exact ⟨.inr (by decide), fun same => absurd same (by decide)⟩
  refine ((first_chunk_single_byte_iff stored Lossless.none known_base64).2.1
    (by decide) chunked).1.mpr ?_
  refine ⟨.inr ⟨by decide, ?_⟩, fun _ => by decide⟩
  have digits : (unpadded (js "YWI=")).all isBase64Digit = true := by decide
  exact List.all_eq_true.mp digits

/-- A header that is not ASCII goes out as UTF-8, one before a string in 'HEX' is lost, a size is
wrong, and a chunk is taken for the last one. -/
theorem first_chunk_not_single_byte : ¬SingleByteChunk .write none (.string (js "x")) sample
      (produced (sample.write none (fun m => (m, [])) (.string (js "x")) none)) [] ∧
    ¬SingleByteChunk .write (some (js "HEX")) (.string (js "00")) sample
      (produced (sample.write none (fun m => (m, [])) (.string (js "00"))
        (some (js "HEX")))) [] ∧
    ¬SingleByteChunk .write (some (js "base64")) (.string (js "YQ==YQ==")) sample
      (produced (sample.write none (fun m => (m, [])) (.string (js "YQ==YQ=="))
        (some (js "base64")))) [] ∧
    ¬SingleByteChunk .write (some (js "base64")) (.string (js "=")) sample
      (produced (sample.write none (fun m => (m, [])) (.string (js "="))
        (some (js "base64")))) [] := by
  obtain ⟨lines, stored⟩ := stored_sample
  have chunked : sample.chunkedEncoding = true := by decide +kernel
  have known : Known none := nofun
  have knownHex : Known (some (js "HEX")) := by
    intro name mem
    cases mem
    decide
  refine ⟨?_, ?_, ?_, ?_⟩
  · rw [stored.singleByteChunk_iff Lossless.none known chunked (by decide)]
    rintro ⟨ascii, -⟩
    have mem : 0xE9 ∈ sample.headerText := by decide +kernel
    exact absurd (ascii 0xE9 mem) (by decide)
  · rw [stored.singleByteChunk_iff Lossless.none knownHex chunked (by decide)]
    rintro ⟨fits, -⟩
    exact fits
  · rw [stored.singleByteChunk_iff Lossless.none known_base64 chunked (by decide)]
    rintro ⟨one | ⟨-, digits⟩, -⟩
    · exact absurd one (by decide)
    · exact absurd (digits base64Pad (by decide)) (by decide)
  rw [stored.singleByteChunk_iff Lossless.none known_base64 chunked (by decide)]
  rintro ⟨-, long⟩
  exact absurd (long rfl) (by decide)

end IoJs.Http
