import IoJs.Http.HeaderBlock

/-!
# A message without a connection

A message that has no connection holds what it produces in `output`. On a connection that is not
destroyed it produces the same: what it has written, and behind it what it holds, is what it would
hold without any connection (`Mirrors`).
-/

namespace IoJs.Http.OutgoingMessage

open IoJs.Stream IoJs.RegExp IoJs.Http List Option

variable {link : Option Link} {front : List Piece} {m : OutgoingMessage}
variable {linked alone : OutgoingMessage × List Piece} {piece : Piece}

/-- The message with more before what it holds -/
def behind (front : List Piece) (m : OutgoingMessage) : OutgoingMessage :=
  { m with output := front ++ m.output }

@[simp] theorem behind_nil (m : OutgoingMessage) : m.behind [] = m := rfl

@[simp] theorem behind_output (front : List Piece) (m : OutgoingMessage) :
    (m.behind front).output = front ++ m.output := rfl

/-- A message holds nothing before its header is sent. -/
def Begun (m : OutgoingMessage) : Prop := m.header = none ∨ m.headerSent = false → m.output = []

instance (m : OutgoingMessage) : Decidable m.Begun := inferInstanceAs (Decidable (_ → _))

/-- A call on a connection, and the same call on a message that holds what has been written -/
structure Mirrors (front : List Piece) (linked alone : OutgoingMessage × List Piece) : Prop where
  same : alone = (linked.1.behind (front ++ linked.2), [])
  begun : alone.1.Begun

theorem Mirrors.message
    (mirrors : Mirrors front linked alone) : alone.1 = linked.1.behind (front ++ linked.2) := by
  rw [mirrors.same]

theorem Mirrors.trans {next nextAlone : OutgoingMessage × List Piece}
    (first : Mirrors front linked alone) (second : Mirrors (front ++ linked.2) next nextAlone) :
    Mirrors front (next.1, linked.2 ++ next.2) (nextAlone.1, alone.2 ++ nextAlone.2) := by
  refine ⟨?_, second.begun⟩
  simp [first.same, second.same]

theorem Mirrors.close (mirrors : Mirrors front linked alone) :
    Mirrors front ({ linked.1 with finished := true }, linked.2)
      ({ alone.1 with finished := true }, alone.2) := by
  refine ⟨?_, mirrors.begun⟩
  rw [mirrors.same]
  rfl

/-- A message has its connection, and may write. -/
def Direct (link : Option Link) : Prop :=
  ∃ l ∈ link, l.own = true ∧ l.writable = true ∧ l.destroyed = false

theorem Mirrors.grows (mirrors : Mirrors front linked alone) : front <+: alone.1.output := by
  simp [mirrors.message, behind_output]

theorem behind_self (m : OutgoingMessage) :
    OutgoingMessage.behind m.output { m with output := [] } = m := by
  simp [behind]

theorem Direct.lossless (direct : Direct link) : Lossless link := by
  obtain ⟨l, rfl, -, -, alive⟩ := direct
  rintro l' ⟨⟩
  exact alive

/-! ## Sending -/

theorem writeRaw_alone (lossless : Lossless link) (front : List Piece) (piece : Piece)
    (m : OutgoingMessage) :
    (m.behind front).writeRaw none piece =
      ((m.writeRaw link piece).1.behind (front ++ (m.writeRaw link piece).2), []) := by
  simp only [writeRaw]
  split
  · simp
  cases link with
  | none => simp only [behind, append_nil, append_assoc]
  | some l =>
    have alive : l.destroyed = false := lossless l rfl
    simp only
    split
    · simp only [behind, append_nil, append_assoc]
    · simp [alive, behind]

theorem writeRaw_direct (direct : Direct link)
    (filled : m.output = [] ∨ piece.data.length ≠ 0) : (m.writeRaw link piece).1.output = [] := by
  obtain ⟨l, rfl, own, writable, alive⟩ := direct
  rw [writeRaw]
  split
  · grind
  · simp [own, writable, alive]

theorem writeRaw_silent (held : ¬Direct link) (piece : Piece) (m : OutgoingMessage) :
    (m.writeRaw link piece).2 = [] := by
  simp only [writeRaw]
  split
  · rfl
  cases link with
  | none => rfl
  | some l =>
    simp only
    rw [if_neg]
    · split
      · rfl
      · rfl
    · exact fun open_ => held ⟨l, rfl, open_.1, open_.2.1, Bool.eq_false_iff.mpr open_.2.2⟩

theorem send_silent (held : ¬Direct link) (piece : Piece) (m : OutgoingMessage) :
    (m.send link piece).2 = [] := by
  rw [send]
  split
  · exact writeRaw_silent held _ _
  split
  · exact writeRaw_silent held _ _
  · exact writeRaw_silent held _ _

theorem sends_silent (held : ¬Direct link) (pieces : List Piece) (m : OutgoingMessage) :
    (m.sends link pieces).2 = [] := by
  induction pieces generalizing m with
  | nil => rfl
  | cons piece pieces ih => simp [sends, send_silent held, ih]

theorem begun_send (piece : Piece) (headed : m.header.isSome) : (m.send link piece).1.Begun := by
  intro unsent
  rw [send_header, send_headerSent] at unsent
  obtain none | unsent := unsent
  · simp [none] at headed
  · cases unsent

theorem send_mirrors (lossless : Lossless link) (piece : Piece) (headed : m.header.isSome)
    (begun : (m.behind front).Begun) :
    Mirrors front (m.send link piece) ((m.behind front).send none piece) := by
  refine ⟨?_, begun_send piece headed⟩
  rw [send, send]
  by_cases sent : m.headerSent = true
  · rw [if_pos sent, if_pos (show (m.behind front).headerSent = true from sent)]
    exact writeRaw_alone lossless front piece m
  -- then nothing has been written, and nothing is held
  have unsent : m.headerSent = false := Bool.eq_false_iff.mpr sent
  obtain ⟨rfl, empty⟩ := append_eq_nil_iff.mp (begun (.inr unsent))
  rw [behind_nil, if_neg sent, if_neg sent]
  cases Prefixable piece with
  | some text =>
    exact writeRaw_alone lossless []
      { piece with data := .string (m.headerText ++ text) } { m with headerSent := true }
  | none =>
    exact writeRaw_alone lossless [] piece
      { m with
        headerSent := true
        output := { data := .string m.headerText, encoding := some (js "binary") } :: m.output }

/-- A piece that does not leave the header behind: it can be put into one string with it, or there
is something in it. -/
def Piece.Carries (piece : Piece) : Prop := (Prefixable piece).isSome ∨ piece.data.length ≠ 0

theorem send_direct (direct : Direct link) (carries : Piece.Carries piece)
    (empty : m.output = []) : (m.send link piece).1.output = [] := by
  rw [send]
  split
  · exact writeRaw_direct direct (.inl empty)
  split
  · exact writeRaw_direct direct (.inl empty)
  rename_i alone
  refine writeRaw_direct direct (.inr ?_)
  refine carries.resolve_left ?_
  simp [alone]

theorem sends_direct (direct : Direct link) {pieces : List Piece}
    (carry : ∀ piece ∈ pieces, Piece.Carries piece) (empty : m.output = []) :
    (m.sends link pieces).1.output = [] := by
  induction pieces generalizing m with
  | nil => exact empty
  | cons piece pieces ih =>
    obtain ⟨carries, carry⟩ := forall_mem_cons.mp carry
    exact ih carry (send_direct direct carries empty)

theorem carries_frame (chunk : Data) (encoding : Option JSString) (filled : chunk.length ≠ 0) :
    ∀ piece ∈ frame chunk encoding, Piece.Carries piece := by
  have pieces : ∀ piece ∈ [Piece.mk (.string (hex (byteLength encoding chunk)))
      (some (js "binary")), ⟨.buffer crlfBuffer, none⟩, ⟨chunk, encoding⟩,
      ⟨.buffer crlfBuffer, none⟩], Piece.Carries piece := by
    simpa [implies_true] using ⟨.inl rfl, .inr (by decide), .inr filled, .inr (by decide)⟩
  rw [frame.eq_def]
  cases chunk with
  | string text =>
    simp only
    split
    · simp only [forall_mem_singleton]
      refine .inr ?_
      simp [Data.length, crlf]
    · exact pieces
  | buffer => exact pieces

theorem carries_body (chunk : Data) (encoding : Option JSString) (m : OutgoingMessage) :
    ∀ piece ∈ m.body chunk encoding, Piece.Carries piece := by
  rw [body]
  split
  · exact nofun
  rename_i has
  have filled : chunk.length ≠ 0 := fun empty => has (.inr empty)
  split
  · exact carries_frame chunk encoding filled
  · exact forall_mem_singleton.mpr (.inr filled)

theorem carries_lastPiece (m : OutgoingMessage) : Piece.Carries m.lastPiece := by
  rw [lastPiece]
  split
  · exact .inl rfl
  · exact .inl rfl

theorem carries_ending (data : Option Data) (encoding : Option JSString) (m : OutgoingMessage) :
    ∀ piece ∈ m.ending data encoding, Piece.Carries piece := by
  intro piece mem
  obtain mem | mem := mem_append.mp mem
  · cases has : given data with
    | none => simp [has] at mem
    | some chunk =>
      rw [has] at mem
      exact carries_body chunk encoding m piece mem
  rw [mem_singleton.mp mem]
  exact carries_lastPiece m

theorem sends_mirrors (lossless : Lossless link) (pieces : List Piece) (headed : m.header.isSome)
    (begun : (m.behind front).Begun) :
    Mirrors front (m.sends link pieces) ((m.behind front).sends none pieces) := by
  induction pieces generalizing front m with
  | nil =>
    refine ⟨?_, begun⟩
    simp [sends]
  | cons piece pieces ih =>
    have first : Mirrors front (m.send link piece) ((m.behind front).send none piece) :=
      send_mirrors lossless piece headed begun
    have headed' : (m.send link piece).1.header.isSome := by
      rw [send_header]
      exact headed
    have begun' := first.begun
    rw [first.message] at begun'
    have rest := ih headed' begun'
    rw [← first.message] at rest
    exact first.trans rest

/-! ## The header -/

/-- Storing a header, which a message does once: before that, it holds nothing. -/
structure Heads (link : Option Link)
    (implicitHeader implicitHeader' : OutgoingMessage → OutgoingMessage × List Piece) : Prop where
  mirrors : ∀ {m : OutgoingMessage}, Lossless link → m.header = none → m.output = [] →
    Mirrors [] (implicitHeader m) (implicitHeader' m)
  direct : ∀ {m : OutgoingMessage}, Direct link → m.header = none → m.output = [] →
    (implicitHeader m).1.output = []
  silent : ∀ {m : OutgoingMessage}, ¬Direct link → m.header = none → (implicitHeader m).2 = []
  headed : ∀ {m : OutgoingMessage}, m.header = none → (implicitHeader m).1.header.isSome
  finished : ∀ {m : OutgoingMessage}, m.header = none → (implicitHeader m).1.finished = m.finished

theorem stored_output (env : Environment) (firstLine : JSString)
    (headers : List (JSString × Value)) (m : OutgoingMessage) :
    (m.stored env firstLine headers).output = m.output := by
  rw [stored_eq]
  rfl

theorem storeHeaders_direct (direct : Direct link) (env : Environment) (firstLine : JSString)
    (headers : List (JSString × Value)) (empty : m.output = []) :
    (m.storeHeaders env link firstLine headers).1.output = [] := by
  have output := (stored_output env firstLine headers m).trans empty
  rw [storeHeaders_eq]
  split
  · exact send_direct direct (.inl rfl) output
  · exact output

theorem storeHeaders_silent (held : ¬Direct link) (env : Environment) (firstLine : JSString)
    (headers : List (JSString × Value)) (m : OutgoingMessage) :
    (m.storeHeaders env link firstLine headers).2 = [] := by
  rw [storeHeaders_eq]
  split
  · exact send_silent held _ _
  · rfl

theorem storeHeaders_mirrors (lossless : Lossless link) (env : Environment) (firstLine : JSString)
    (headers : List (JSString × Value)) (empty : m.output = []) :
    Mirrors [] (m.storeHeaders env link firstLine headers)
      (m.storeHeaders env none firstLine headers) := by
  have output := (stored_output env firstLine headers m).trans empty
  have headed : (m.stored env firstLine headers).header.isSome := by rfl
  have begun : ((m.stored env firstLine headers).behind []).Begun := fun _ => output
  rw [storeHeaders_eq, storeHeaders_eq]
  split
  · exact send_mirrors lossless _ headed begun
  · exact ⟨rfl, begun⟩

variable {implicitHeader implicitHeader' : OutgoingMessage → OutgoingMessage × List Piece}

theorem ensureHeader_mirrors (lossless : Lossless link)
    (heads : Heads link implicitHeader implicitHeader') (begun : (m.behind front).Begun) :
    Mirrors front (m.ensureHeader implicitHeader)
      ((m.behind front).ensureHeader implicitHeader') := by
  rw [ensureHeader, ensureHeader]
  by_cases unstored : m.header = none
  · obtain ⟨rfl, empty⟩ := append_eq_nil_iff.mp (begun (.inl unstored))
    have none : m.header.isNone = true := isNone_iff_eq_none.mpr unstored
    simpa [behind_nil, none] using heads.mirrors lossless unstored empty
  have stored : ¬m.header.isNone = true := fun none => unstored (isNone_iff_eq_none.mp none)
  rw [if_neg stored, if_neg (show ¬(m.behind front).header.isNone = true from stored)]
  refine ⟨?_, begun⟩
  simp

theorem ensureHeader_fields (heads : Heads link implicitHeader implicitHeader')
    (m : OutgoingMessage) :
    (m.ensureHeader implicitHeader).1.header.isSome ∧
      (m.ensureHeader implicitHeader).1.finished = m.finished := by
  rw [ensureHeader]
  split
  · rename_i none
    have unstored := isNone_iff_eq_none.mp none
    exact ⟨heads.headed unstored, heads.finished unstored⟩
  rename_i stored
  refine ⟨?_, rfl⟩
  rw [isSome_iff_ne_none]
  exact fun none => stored (isNone_iff_eq_none.mpr none)

theorem ensureHeader_direct (direct : Direct link)
    (heads : Heads link implicitHeader implicitHeader') (empty : m.output = []) :
    (m.ensureHeader implicitHeader).1.output = [] := by
  rw [ensureHeader]
  split
  · rename_i none
    exact heads.direct direct (isNone_iff_eq_none.mp none) empty
  · exact empty

theorem ensureHeader_silent (held : ¬Direct link)
    (heads : Heads link implicitHeader implicitHeader') (m : OutgoingMessage) :
    (m.ensureHeader implicitHeader).2 = [] := by
  rw [ensureHeader]
  split
  · rename_i none
    exact heads.silent held (isNone_iff_eq_none.mp none)
  · rfl

/-! ## `write` and `end` -/

theorem write_of_finished (link : Option Link)
    (implicitHeader : OutgoingMessage → OutgoingMessage × List Piece) (chunk : Data)
    (encoding : Option JSString) (finished : m.finished = true) :
    m.write link implicitHeader chunk encoding = (m, []) := if_pos finished

theorem end_of_finished (link : Option Link)
    (implicitHeader : OutgoingMessage → OutgoingMessage × List Piece) (data : Option Data)
    (encoding : Option JSString) (finished : m.finished = true) :
    m.end_ link implicitHeader data encoding = (m, []) := if_pos finished

theorem write_mirrors (lossless : Lossless link) (heads : Heads link implicitHeader implicitHeader')
    (chunk : Data) (encoding : Option JSString) (begun : (m.behind front).Begun) :
    Mirrors front (m.write link implicitHeader chunk encoding)
      ((m.behind front).write none implicitHeader' chunk encoding) := by
  by_cases finished : m.finished = true
  · rw [write_of_finished _ _ _ _ finished,
      write_of_finished _ _ _ _ (show (m.behind front).finished = true from finished)]
    refine ⟨?_, begun⟩
    simp
  have unfinished : m.finished = false := Bool.eq_false_iff.mpr finished
  have unfinished' : (m.behind front).finished = false := unfinished
  have first := ensureHeader_mirrors lossless heads begun
  have begun' := first.begun
  rw [write_eq chunk encoding unfinished, write_eq chunk encoding unfinished']
  rw [first.message] at begun'
  have rest := sends_mirrors lossless ((m.ensureHeader implicitHeader).1.body chunk encoding)
    (ensureHeader_fields heads m).1 begun'
  rw [← first.message] at rest
  have body : ((m.behind front).ensureHeader implicitHeader').1.body chunk encoding =
      (m.ensureHeader implicitHeader).1.body chunk encoding := by
    rw [first.message]
    rfl
  simpa [body] using first.trans rest

theorem write_direct (direct : Direct link) (heads : Heads link implicitHeader implicitHeader')
    (chunk : Data) (encoding : Option JSString) (empty : m.output = []) :
    (m.write link implicitHeader chunk encoding).1.output = [] := by
  by_cases finished : m.finished = true
  · rw [write_of_finished _ _ _ _ finished]
    exact empty
  rw [write_eq chunk encoding (Bool.eq_false_iff.mpr finished)]
  exact sends_direct direct (carries_body chunk encoding _) (ensureHeader_direct direct heads empty)

theorem write_silent (held : ¬Direct link) (heads : Heads link implicitHeader implicitHeader')
    (chunk : Data) (encoding : Option JSString) (m : OutgoingMessage) :
    (m.write link implicitHeader chunk encoding).2 = [] := by
  by_cases finished : m.finished = true
  · rw [write_of_finished _ _ _ _ finished]
  rw [write_eq chunk encoding (Bool.eq_false_iff.mpr finished)]
  simp [ensureHeader_silent held heads, sends_silent held]

theorem write_grows (alone : Heads none implicitHeader implicitHeader) (chunk : Data)
    (encoding : Option JSString) (begun : m.Begun) :
    m.output <+: (m.write none implicitHeader chunk encoding).1.output ∧
      (m.write none implicitHeader chunk encoding).1.Begun := by
  have begun' : (OutgoingMessage.behind m.output { m with output := [] }).Begun := by
    rw [behind_self]
    exact begun
  have mirrors := write_mirrors Lossless.none alone chunk encoding begun'
  rw [behind_self] at mirrors
  exact ⟨mirrors.grows, mirrors.begun⟩

theorem write_finished (heads : Heads link implicitHeader implicitHeader') (chunk : Data)
    (encoding : Option JSString) (m : OutgoingMessage) :
    (m.write link implicitHeader chunk encoding).1.finished = m.finished := by
  by_cases finished : m.finished = true
  · rw [write_of_finished _ _ _ _ finished]
  rw [write_eq chunk encoding (Bool.eq_false_iff.mpr finished)]
  rw [sends_eq]
  exact (ensureHeader_fields heads m).2

theorem behind_withLength (front : List Piece) (data : Option Data) (encoding : Option JSString)
    (m : OutgoingMessage) :
    (m.behind front).withLength data encoding = (m.withLength data encoding).behind front := by
  rw [withLength, withLength]
  by_cases none : m.header.isNone = true
  · rw [if_pos none, if_pos (show (m.behind front).header.isNone = true from none)]
    rfl
  · rw [if_neg none, if_neg (show ¬(m.behind front).header.isNone = true from none)]

theorem withLength_eq (data : Option Data) (encoding : Option JSString) (m : OutgoingMessage) :
    m.withLength data encoding =
      { m with contentLength := (m.withLength data encoding).contentLength } := by
  rw [withLength]
  split
  · rfl
  · rfl

theorem withLength_begun (data : Option Data) (encoding : Option JSString) (begun : m.Begun) :
    (m.withLength data encoding).Begun := by
  rw [withLength_eq]
  exact begun

theorem end_eq_of_heads (heads : Heads link implicitHeader implicitHeader') (data : Option Data)
    (encoding : Option JSString) (unfinished : m.finished = false) :
    m.end_ link implicitHeader data encoding =
      let headed := (m.withLength data encoding).ensureHeader implicitHeader
      let sent := headed.1.sends link (headed.1.ending data encoding)
      ({ sent.1 with finished := true }, headed.2 ++ sent.2) := by
  obtain ⟨headed, kept⟩ := ensureHeader_fields heads (m.withLength data encoding)
  refine end_eq data encoding unfinished headed (kept.trans ?_)
  rw [withLength_eq]
  exact unfinished

theorem end_mirrors (lossless : Lossless link) (heads : Heads link implicitHeader implicitHeader')
    (alone : Heads none implicitHeader' implicitHeader') (data : Option Data)
    (encoding : Option JSString) (begun : (m.behind front).Begun) :
    Mirrors front (m.end_ link implicitHeader data encoding)
      ((m.behind front).end_ none implicitHeader' data encoding) := by
  by_cases finished : m.finished = true
  · rw [end_of_finished _ _ _ _ finished,
      end_of_finished _ _ _ _ (show (m.behind front).finished = true from finished)]
    refine ⟨?_, begun⟩
    simp
  have unfinished : m.finished = false := Bool.eq_false_iff.mpr finished
  have unfinished' : (m.behind front).finished = false := unfinished
  have begun' := withLength_begun data encoding begun
  rw [behind_withLength] at begun'
  have first := ensureHeader_mirrors lossless heads begun'
  have begun'' := first.begun
  rw [end_eq_of_heads heads data encoding unfinished,
    end_eq_of_heads alone data encoding unfinished', behind_withLength]
  generalize m.withLength data encoding = m' at first begun''
  rw [first.message] at begun''
  have rest := sends_mirrors lossless ((m'.ensureHeader implicitHeader).1.ending data encoding)
    (ensureHeader_fields heads m').1 begun''
  rw [← first.message] at rest
  have ending : ((m'.behind front).ensureHeader implicitHeader').1.ending data encoding =
      (m'.ensureHeader implicitHeader).1.ending data encoding := by
    rw [first.message]
    rfl
  simpa [ending] using (first.trans rest).close

theorem end_direct (direct : Direct link) (heads : Heads link implicitHeader implicitHeader')
    (data : Option Data) (encoding : Option JSString) (empty : m.output = []) :
    (m.end_ link implicitHeader data encoding).1.output = [] := by
  by_cases finished : m.finished = true
  · rw [end_of_finished _ _ _ _ finished]
    exact empty
  have empty' : (m.withLength data encoding).output = [] := by
    rw [withLength_eq]
    exact empty
  rw [end_eq_of_heads heads data encoding (Bool.eq_false_iff.mpr finished)]
  exact sends_direct direct (carries_ending data encoding _)
    (ensureHeader_direct direct heads empty')

theorem end_silent (held : ¬Direct link) (heads : Heads link implicitHeader implicitHeader')
    (data : Option Data) (encoding : Option JSString) (m : OutgoingMessage) :
    (m.end_ link implicitHeader data encoding).2 = [] := by
  by_cases finished : m.finished = true
  · rw [end_of_finished _ _ _ _ finished]
  rw [end_eq_of_heads heads data encoding (Bool.eq_false_iff.mpr finished)]
  simp [ensureHeader_silent held heads, sends_silent held]

theorem end_grows (alone : Heads none implicitHeader implicitHeader) (data : Option Data)
    (encoding : Option JSString) (begun : m.Begun) :
    m.output <+: (m.end_ none implicitHeader data encoding).1.output ∧
      (m.end_ none implicitHeader data encoding).1.Begun := by
  have begun' : (OutgoingMessage.behind m.output { m with output := [] }).Begun := by
    rw [behind_self]
    exact begun
  have mirrors := end_mirrors Lossless.none alone alone data encoding begun'
  rw [behind_self] at mirrors
  exact ⟨mirrors.grows, mirrors.begun⟩

theorem end_finished (implicitHeader : OutgoingMessage → OutgoingMessage × List Piece)
    (data : Option Data) (encoding : Option JSString) (m : OutgoingMessage) :
    (m.end_ link implicitHeader data encoding).1.finished = true := by
  rw [end_]
  split
  · omega
  · rfl

end IoJs.Http.OutgoingMessage
