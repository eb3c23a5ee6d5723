import IoJs.Http.Outgoing

/-!
# What a message produces

What a message has produced is what it has written to the connection, and behind it what waits in
`output`. Unless the connection is destroyed, a piece that is sent is added at the end, whether
the message has the connection to itself or not. The header is put before the first piece; where
that cannot be done in one string, it is put before all of `output`.
-/

namespace IoJs.Http

open IoJs.Stream IoJs.RegExp List Option

/-- Nothing is lost on the connection. -/
def Lossless (link : Option Link) : Prop := ∀ l ∈ link, l.destroyed = false

theorem Lossless.none : Lossless none := by
  intro l mem
  cases mem

/-- A piece that has anything in it -/
def Piece.filled (piece : Piece) : List Piece := if piece.data.length = 0 then [] else [piece]

theorem Piece.filled_of_ne {piece : Piece} (filled : piece.data.length ≠ 0) :
    piece.filled = [piece] := if_neg filled

/-! ## What pieces hold -/

/-- A code unit of a string, or a byte of a Buffer -/
abbrev Symbol := UInt16 ⊕ UInt8

/-- The symbols of a text -/
def symbols (text : JSString) : List Symbol := text.map .inl

theorem symbols_append (left right : JSString) :
    symbols (left ++ right) = symbols left ++ symbols right := map_append

/-- What is in a string or a Buffer -/
def Data.content : Data → List Symbol
  | .string text => symbols text
  | .buffer bytes => bytes.map .inr

/-- What is in some pieces, one after the other -/
def content (pieces : List Piece) : List Symbol := pieces.flatMap (·.data.content)

@[simp] theorem content_nil : content [] = [] := rfl

@[simp] theorem content_cons (piece : Piece) (pieces : List Piece) :
    content (piece :: pieces) = piece.data.content ++ content pieces := flatMap_cons

@[simp] theorem content_append (left right : List Piece) :
    content (left ++ right) = content left ++ content right := flatMap_append

theorem Data.content_eq_nil {data : Data} (empty : data.length = 0) : data.content = [] := by
  cases data with
  | string | buffer => exact map_eq_nil_iff.mpr (length_eq_zero_iff.mp empty)

@[simp] theorem content_filled (piece : Piece) : content piece.filled = piece.data.content := by
  rw [Piece.filled]
  split
  · rename_i empty
    rw [Data.content_eq_nil empty]
    rfl
  · rw [content_cons, content_nil, append_nil]

theorem content_flatMap_filled (pieces : List Piece) :
    content (pieces.flatMap Piece.filled) = content pieces := by
  induction pieces with
  | nil => rfl
  | cons piece pieces ih => rw [flatMap_cons, content_append, content_filled, ih, content_cons]

namespace OutgoingMessage

variable {link : Option Link} {piece : Piece} {m : OutgoingMessage} {pieces : List Piece}

/-! ## What does not change -/

section

variable (link : Option Link) (piece : Piece) (m : OutgoingMessage)

theorem writeRaw_eq :
    (m.writeRaw link piece).1 = { m with output := (m.writeRaw link piece).1.output } := by
  rw [writeRaw.eq_def]
  repeat' split
  all_goals rfl

theorem send_eq : (m.send link piece).1 =
    { m with headerSent := true, output := (m.send link piece).1.output } := by
  rw [send]
  split
  · rename_i sent
    conv_lhs => rw [writeRaw_eq]
    rw [← sent]
  split
  · conv_lhs => rw [writeRaw_eq]
  · conv_lhs => rw [writeRaw_eq]

@[simp] theorem send_header : (m.send link piece).1.header = m.header := by rw [send_eq]

@[simp] theorem send_headerSent : (m.send link piece).1.headerSent = true := by rw [send_eq]

end

/-! ## What is produced -/

/-- What was written, and what waits -/
def produced (r : OutgoingMessage × List Piece) : List Piece := r.2 ++ r.1.output

section

variable (lossless : Lossless link)
include lossless

theorem produced_writeRaw : produced (m.writeRaw link piece) = m.output ++ piece.filled := by
  rw [writeRaw.eq_def, Piece.filled, produced]
  split
  · rw [append_nil]
    rfl
  cases link with
  | none => rfl
  | some l =>
    have alive := lossless l rfl
    simp only
    split
    · rw [append_nil]
    rw [if_neg (by rw [alive]; decide)]
    rfl

theorem produced_send_sent (sent : m.headerSent = true) :
    produced (m.send link piece) = m.output ++ piece.filled := by
  rw [send, if_pos sent]
  exact produced_writeRaw lossless

theorem produced_send_text (unsent : m.headerSent = false)
    {text : JSString} (fits : Prefixable piece = some text) :
    produced (m.send link piece) =
      m.output ++ { piece with data := .string (m.headerText ++ text) : Piece }.filled := by
  rw [send, if_neg (by rw [unsent]; decide), fits]
  exact produced_writeRaw lossless

theorem produced_send_other (unsent : m.headerSent = false) (alone : Prefixable piece = none) :
    produced (m.send link piece) =
      { data := .string m.headerText, encoding := some (js "binary") } ::
        (m.output ++ piece.filled) := by
  rw [send, if_neg (by rw [unsent]; decide), alone]
  exact produced_writeRaw lossless

end

theorem sends_eq (link : Option Link) (pieces : List Piece) (m : OutgoingMessage) :
    (m.sends link pieces).1 = { m with
        headerSent := m.headerSent || !pieces.isEmpty
        output := (m.sends link pieces).1.output } := by
  induction pieces generalizing m with
  | nil => rw [sends]; simp
  | cons piece pieces ih =>
    simp only [sends]
    rw [ih, send_eq]
    simp

theorem sends_headerSent (some_ : pieces ≠ []) : (m.sends link pieces).1.headerSent = true := by
  rw [sends_eq]
  cases pieces with
  | nil => exact absurd rfl some_
  | cons => exact Bool.or_true _

theorem produced_sends_sent (lossless : Lossless link) (sent : m.headerSent = true)
    (pieces : List Piece) :
    produced (m.sends link pieces) = m.output ++ pieces.flatMap Piece.filled := by
  induction pieces generalizing m with
  | nil => rw [sends, produced, flatMap_nil, append_nil, nil_append]
  | cons piece pieces ih =>
    have first : produced (m.send link piece) = m.output ++ piece.filled :=
      produced_send_sent lossless sent
    have rest := ih (send_headerSent link piece m)
    rw [produced] at first rest
    simp only [sends, produced]
    rw [append_assoc, rest, ← append_assoc, first, append_assoc, flatMap_cons]

theorem produced_sends_cons (lossless : Lossless link) (pieces : List Piece) :
    produced (m.sends link (piece :: pieces)) =
      produced (m.send link piece) ++ pieces.flatMap Piece.filled := by
  have rest := produced_sends_sent lossless (send_headerSent link piece m) pieces
  rw [produced] at rest
  simp only [sends, produced]
  rw [append_assoc, rest, append_assoc]

theorem sends_append (left right : List Piece) (m : OutgoingMessage) :
    m.sends link (left ++ right) = (((m.sends link left).1.sends link right).1,
        (m.sends link left).2 ++ ((m.sends link left).1.sends link right).2) := by
  induction left generalizing m with
  | nil => rfl
  | cons piece left ih => simp only [cons_append, sends, ih, append_assoc]

theorem sends_singleton (piece : Piece) (m : OutgoingMessage) :
    m.sends link [piece] = m.send link piece := by
  simp only [sends, append_nil]

theorem lastPiece_sends (pieces : List Piece) (m : OutgoingMessage) :
    (m.sends link pieces).1.lastPiece = m.lastPiece := by
  rw [sends_eq]
  rfl

/-- The header can be put where it belongs: it is not before something else that waits. -/
def Fits (m : OutgoingMessage) (pieces : List Piece) : Prop :=
  m.headerSent = false → m.output ≠ [] → ∀ piece ∈ pieces.head?, (Prefixable piece).isSome

instance (m : OutgoingMessage) (pieces : List Piece) : Decidable (m.Fits pieces) :=
  inferInstanceAs (Decidable (_ → _ → ∀ piece ∈ pieces.head?, (Prefixable piece).isSome = true))

/-- What is added by the first piece that is sent, beside the piece itself -/
def unsentHeader (m : OutgoingMessage) : List Symbol :=
  if m.headerSent then [] else symbols m.headerText

theorem content_send (lossless : Lossless link) (fits : m.Fits [piece]) :
    content (produced (m.send link piece)) =
      content m.output ++ (m.unsentHeader ++ piece.data.content) := by
  rw [unsentHeader]
  cases sent : m.headerSent with
  | true => rw [produced_send_sent lossless sent, content_append, content_filled, if_pos rfl]; rfl
  | false =>
    rw [if_neg (by decide)]
    cases text : Prefixable piece with
    | some text' =>
      have data : piece.data = .string text' := by
        rw [Prefixable] at text
        split at text
        · rename_i text'' eq
          split at text
          · rw [eq, some.inj text]
          · cases text
        · cases text
      rw [produced_send_text lossless sent text, content_append, content_filled, data]
      simp only [Data.content, symbols_append]
    | none =>
      -- then nothing waits
      have empty : m.output = [] := by
        by_contra waiting
        have some := fits sent waiting piece rfl
        rw [text] at some
        cases some
      rw [produced_send_other lossless sent text, content_cons, empty, nil_append, content_filled]
      rfl

theorem content_sends (lossless : Lossless link) (some_ : pieces ≠ []) (fits : m.Fits pieces) :
    content (produced (m.sends link pieces)) =
      content m.output ++ (m.unsentHeader ++ content pieces) := by
  cases pieces with
  | nil => exact absurd rfl some_
  | cons =>
    rw [produced_sends_cons lossless, content_append, content_send lossless fits,
      content_flatMap_filled, content_cons]
    simp only [append_assoc]

/-! ## `write` and `end` -/

/-- The message of `end`, which knows the length of the body -/
def withLength (data : Option Data) (encoding : Option JSString) (m : OutgoingMessage) :
    OutgoingMessage :=
  if m.header.isNone then
    { m with contentLength := some (((given data).map (byteLength encoding)).getD 0) }
  else m

/-- What `end` sends, after the header -/
def ending (data : Option Data) (encoding : Option JSString) (m : OutgoingMessage) : List Piece :=
  ((given data).map fun chunk => m.body chunk encoding).getD [] ++ [m.lastPiece]

variable {implicitHeader : OutgoingMessage → OutgoingMessage × List Piece}

theorem write_eq (chunk : Data) (encoding : Option JSString) (unfinished : m.finished = false) :
    m.write link implicitHeader chunk encoding = let headed := m.ensureHeader implicitHeader
      let sent := headed.1.sends link (headed.1.body chunk encoding)
      (sent.1, headed.2 ++ sent.2) := by
  rw [write, if_neg (by rw [unfinished]; decide)]

theorem end_eq (data : Option Data) (encoding : Option JSString) (unfinished : m.finished = false)
    (headed : ((m.withLength data encoding).ensureHeader implicitHeader).1.header.isSome)
    (unfinished' : ((m.withLength data encoding).ensureHeader implicitHeader).1.finished = false) :
    m.end_ link implicitHeader data encoding =
      let headed := (m.withLength data encoding).ensureHeader implicitHeader
      let sent := headed.1.sends link (headed.1.ending data encoding)
      ({ sent.1 with finished := true }, headed.2 ++ sent.2) := by
  rw [end_, if_neg (by rw [unfinished]; decide)]
  simp only [withLength, ending] at headed unfinished' ⊢
  generalize (if m.header.isNone = true then
      { m with contentLength := some (((given data).map (byteLength encoding)).getD 0) }
    else m).ensureHeader implicitHeader = first at headed unfinished'
  have again : first.1.ensureHeader implicitHeader = (first.1, []) := by
    rw [ensureHeader, if_neg]
    rw [isNone_iff_eq_none]
    intro none
    rw [none] at headed
    cases headed
  cases given data with
  | none => simp only [map_none, getD_none, nil_append, sends_singleton, append_nil]
  | some chunk =>
    simp only [write_eq chunk encoding unfinished', again, map_some, getD_some,
      sends_append, sends_singleton, lastPiece_sends, nil_append, append_assoc]

end OutgoingMessage

end IoJs.Http
