import IoJs.Http.Mirror

/-!
# A response that has the connection to itself

A response that waits for its turn holds what it produces. What it holds is what it would have
written, had it had the connection to itself (`Follows`), for the header does not depend on what is
held, and pieces are added one after the other.
-/

namespace IoJs.Http

open IoJs.Stream IoJs.RegExp List Option

/-- An open connection that belongs to the message -/
def Link.open_ : Link := ⟨true, true, false⟩

namespace OutgoingMessage

variable {link : Option Link} {held : List Piece} {m : OutgoingMessage}
variable {r alone : OutgoingMessage × List Piece} {piece : Piece} {encoding : Option JSString}

/-- The message, if it held some pieces -/
def holding (pieces : List Piece) (m : OutgoingMessage) : OutgoingMessage :=
  { m with output := pieces }

/-- A call of a message that holds something, and the same call of one that has its connection to
itself and holds nothing -/
structure Follows (held : List Piece) (r alone : OutgoingMessage × List Piece) : Prop where
  same : alone.1 = r.1.holding []
  produced : produced r = held ++ alone.2

theorem Follows.trans {next nextAlone : OutgoingMessage × List Piece}
    (first : Follows held r alone) (second : Follows r.1.output next nextAlone) :
    Follows held (next.1, r.2 ++ next.2) (nextAlone.1, alone.2 ++ nextAlone.2) := by
  refine ⟨second.same, ?_⟩
  have rest := second.produced
  have begun := first.produced
  rw [OutgoingMessage.produced] at rest begun ⊢
  rw [append_assoc, rest, ← append_assoc, begun, append_assoc]

theorem Follows.refl (m : OutgoingMessage) : Follows m.output (m, []) (m.holding [], []) :=
  ⟨rfl, (append_nil _).symm⟩

theorem Follows.close (follows : Follows held r alone) :
    Follows held ({ r.1 with finished := true }, r.2) ({ alone.1 with finished := true },
      alone.2) := by
  refine ⟨?_, follows.produced⟩
  rw [follows.same]
  rfl

/-! ## Sending -/

theorem writeRaw_open (filled : piece.data.length ≠ 0) (m : OutgoingMessage) :
    m.writeRaw (some .open_) piece = (m.holding [], m.output ++ [piece]) := by
  rw [writeRaw.eq_def, if_neg filled]
  rfl

theorem writeRaw_follows (lossless : Lossless link) (piece : Piece) (m : OutgoingMessage) :
    Follows m.output (m.writeRaw link piece) ((m.holding []).writeRaw (some .open_) piece) := by
  have produced : OutgoingMessage.produced (m.writeRaw link piece) = m.output ++ piece.filled :=
    produced_writeRaw lossless
  have alone : (m.holding []).writeRaw (some .open_) piece = (m.holding [], piece.filled) := by
    rw [writeRaw.eq_def, Piece.filled]
    split
    · rfl
    · rfl
  rw [alone]
  refine ⟨?_, produced⟩
  rw [writeRaw_eq]
  rfl

theorem send_follows (lossless : Lossless link) (carries : Piece.Carries piece)
    (fits : m.Fits [piece]) :
    Follows m.output (m.send link piece) ((m.holding []).send (some .open_) piece) := by
  rw [send, send]
  by_cases sent : m.headerSent = true
  · rw [if_pos sent, if_pos (show (m.holding []).headerSent = true from sent)]
    exact writeRaw_follows lossless piece m
  rw [if_neg sent, if_neg (show ¬(m.holding []).headerSent = true from sent)]
  cases text : Prefixable piece with
  | some text' =>
    exact writeRaw_follows lossless { piece with data := .string (m.headerText ++ text') }
      { m with headerSent := true }
  | none =>
    have empty : m.output = [] := by
      by_contra waiting
      have some := fits (Bool.eq_false_iff.mpr sent) waiting piece rfl
      rw [text] at some
      cases some
    have filled : piece.data.length ≠ 0 := by
      refine carries.resolve_left ?_
      rw [text]
      exact Bool.false_ne_true
    have produced := produced_send_other lossless (Bool.eq_false_iff.mpr sent) text
    rw [send, if_neg sent, text, empty, nil_append, Piece.filled_of_ne filled] at produced
    simp only [writeRaw_open filled, empty] at produced ⊢
    refine ⟨?_, produced⟩
    rw [writeRaw_eq]
    rfl

theorem sends_follows (lossless : Lossless link) {pieces : List Piece}
    (carry : ∀ piece ∈ pieces, Piece.Carries piece) (fits : m.Fits pieces) :
    Follows m.output (m.sends link pieces) ((m.holding []).sends (some .open_) pieces) := by
  induction pieces generalizing m with
  | nil => exact .refl m
  | cons piece pieces ih =>
    obtain ⟨carries, carry⟩ := forall_mem_cons.mp carry
    have first := send_follows lossless carries fits
    have rest := ih (m := (m.send link piece).1) carry fun unsent => by
      rw [send_headerSent] at unsent
      cases unsent
    rw [← first.same] at rest
    exact first.trans rest

/-! ## The header -/

/-- A message with what is known of its header, if it held some pieces -/
def heldState (pieces : List Piece) (r : OutgoingMessage × HeaderState) :
    OutgoingMessage × HeaderState := (r.1.holding pieces, r.2)

section

variable (env : Environment) (pieces : List Piece)

theorem storeHeader_held (field value : JSString) (r : OutgoingMessage × HeaderState) :
    storeHeader env field value (heldState pieces r) =
      heldState pieces (storeHeader env field value r) := by
  simp only [storeHeader, apply_ite (heldState pieces)]
  simp only [heldState, apply_ite (holding pieces)]
  rfl

theorem storeFields_held (headers : List (JSString × Value)) (r : OutgoingMessage × HeaderState) :
    storeFields env headers (heldState pieces r) =
      heldState pieces (storeFields env headers r) := by
  rw [storeFields, storeFields]
  induction fieldLines headers generalizing r with
  | nil => rfl
  | cons field fields ih =>
    rw [foldl_cons, foldl_cons, storeHeader_held]
    exact ih _

theorem storeDate_held (r : OutgoingMessage × HeaderState) :
    storeDate env (heldState pieces r) = heldState pieces (storeDate env r) := by
  simp only [storeDate, apply_ite (heldState pieces)]
  rfl

theorem forceClose_held (m : OutgoingMessage) :
    (m.holding pieces).forceClose = m.forceClose.holding pieces := by
  simp only [forceClose, apply_ite (holding pieces)]
  rfl

theorem storeConnection_held (r : OutgoingMessage × HeaderState) :
    storeConnection (heldState pieces r) = heldState pieces (storeConnection r) := by
  simp only [storeConnection, apply_ite (heldState pieces)]
  rfl

theorem storeFraming_held (r : OutgoingMessage × HeaderState) :
    storeFraming (heldState pieces r) = heldState pieces (storeFraming r) := by
  obtain ⟨m, state⟩ := r
  change storeFraming (m.holding pieces, state) = _
  have same : (m.holding pieces).contentLength = m.contentLength ∧
      (m.holding pieces).removedHeader = m.removedHeader := ⟨rfl, rfl⟩
  cases length : m.contentLength with
  | none =>
    simp only [storeFraming, same.1, length, apply_ite (heldState pieces)]
    rfl
  | some n =>
    cases trailer : state.sentTrailer || m.removedHeader.contentLength with
    | false | true =>
      simp only [storeFraming, same.1, same.2, length, trailer, apply_ite (heldState pieces)]
      rfl

theorem afterFraming_held (firstLine : JSString) (headers : List (JSString × Value))
    (m : OutgoingMessage) :
    afterFraming env firstLine headers (m.holding pieces) =
      heldState pieces (afterFraming env firstLine headers m) := by
  have fields : afterFields env firstLine headers (m.holding pieces) =
      heldState pieces (afterFields env firstLine headers m) :=
    storeFields_held env pieces headers (m, .start firstLine)
  have date : afterDate env firstLine headers (m.holding pieces) =
      heldState pieces (afterDate env firstLine headers m) := by
    rw [afterDate, fields, storeDate_held, afterDate]
    simp only [heldState, forceClose_held]
  rw [afterFraming, date, storeConnection_held, storeFraming_held, afterFraming]

theorem stored_held (firstLine : JSString) (headers : List (JSString × Value))
    (m : OutgoingMessage) :
    (m.holding pieces).stored env firstLine headers =
      (m.stored env firstLine headers).holding pieces := by
  rw [stored, afterFraming_held]
  rfl

end

theorem storeHeaders_follows (lossless : Lossless link) (env : Environment) (firstLine : JSString)
    (headers : List (JSString × Value)) (m : OutgoingMessage) :
    Follows m.output (m.storeHeaders env link firstLine headers)
      ((m.holding []).storeHeaders env (some .open_) firstLine headers) := by
  have output := stored_output env firstLine headers m
  have text : (Prefixable { data := .string [], encoding := none }).isSome = true := rfl
  rw [storeHeaders_eq, storeHeaders_eq, afterFraming_held, stored_held, ← output]
  by_cases expects : (afterFraming env firstLine headers m).2.sentExpect = true
  · rw [if_pos expects, if_pos (show (heldState [] _).2.sentExpect = true from expects)]
    refine send_follows lossless (.inl text) ?_
    intro _ _ piece mem
    cases mem
    exact text
  rw [if_neg expects, if_neg (show ¬(heldState [] _).2.sentExpect = true from expects)]
  exact .refl _

/-! ## A response -/

/-- The fields that are stored by themselves -/
def implicitFields (m : OutgoingMessage) : List (JSString × Value) :=
  if m.headers.isSome then m.renderHeaders.getD [] else []

/-- The message whose header is stored by itself -/
def implicitMessage (m : OutgoingMessage) : OutgoingMessage :=
  (m.withStatus (m.statusCode.getD 200) (m.reasonPhrase (m.statusCode.getD 200) none)).withoutBody
    (m.statusCode.getD 200)

/-- Its status line -/
def implicitLine (m : OutgoingMessage) : JSString :=
  statusLine (m.statusCode.getD 200) (m.reasonPhrase (m.statusCode.getD 200) none)

theorem implicitHeader_eq (env : Environment) (link : Option Link) (unstored : m.header = none) :
    m.implicitHeader env link =
      m.implicitMessage.storeHeaders env link m.implicitLine m.implicitFields := by
  have found (statusMessage : JSString) :
      (m.withStatus (m.statusCode.getD 200) statusMessage).headersOf env [] =
        some (m.withStatus (m.statusCode.getD 200) statusMessage, m.implicitFields) := by
    rw [headersOf, implicitFields]
    by_cases progressive : m.headers.isSome = true
    · have rendered : m.renderHeaders = some (m.renderHeaders.getD []) := by
        rw [renderHeaders, if_neg (by rw [unstored]; decide)]
        rfl
      rw [if_pos progressive]
      refine (if_pos progressive).trans ?_
      exact congrArg (Option.map _) rendered
    rw [if_neg progressive]
    exact if_neg progressive
  rw [implicitHeader, writeHead_eq]
  simp only [found]
  rfl

theorem heads_implicitHeader (env : Environment) (link : Option Link) :
    Heads link (implicitHeader env link) (implicitHeader env none) where
  mirrors lossless unstored empty := by
    rw [implicitHeader_eq env _ unstored, implicitHeader_eq env _ unstored]
    exact storeHeaders_mirrors lossless env _ _ empty
  direct direct unstored empty := by
    rw [implicitHeader_eq env _ unstored]
    exact storeHeaders_direct direct env _ _ empty
  silent held unstored := by
    rw [implicitHeader_eq env _ unstored]
    exact storeHeaders_silent held env _ _ _
  headed unstored := by
    rw [implicitHeader_eq env _ unstored]
    exact (storeHeaders_fields env _ _ _ _).1
  finished unstored := by
    rw [implicitHeader_eq env _ unstored]
    exact (storeHeaders_fields env _ _ _ _).2

theorem ensureHeader_follows (lossless : Lossless link) (env : Environment) (m : OutgoingMessage) :
    Follows m.output (m.ensureHeader (implicitHeader env link))
      ((m.holding []).ensureHeader (implicitHeader env (some .open_))) := by
  rw [ensureHeader, ensureHeader]
  by_cases none : m.header.isNone = true
  · have unstored := isNone_iff_eq_none.mp none
    have unstored' : (m.holding []).header = Option.none := unstored
    rw [if_pos none, if_pos (show (m.holding []).header.isNone = true from none),
      implicitHeader_eq env _ unstored, implicitHeader_eq env _ unstored']
    exact storeHeaders_follows lossless env m.implicitLine m.implicitFields m.implicitMessage
  rw [if_neg none, if_neg (show ¬(m.holding []).header.isNone = true from none)]
  exact .refl m

/-- A response begins with a text, or holds nothing, when it writes. -/
def WriteFits (env : Environment) (link : Option Link) (chunk : Data) (encoding : Option JSString)
    (m : OutgoingMessage) : Prop :=
  let headed := (m.ensureHeader (implicitHeader env link)).1
  m.finished = false → headed.Fits (headed.body chunk encoding)

/-- So it does when it ends. -/
def EndFits (env : Environment) (link : Option Link) (data : Option Data)
    (encoding : Option JSString) (m : OutgoingMessage) : Prop :=
  let headed := ((m.withLength data encoding).ensureHeader (implicitHeader env link)).1
  m.finished = false → headed.Fits (headed.ending data encoding)

instance (env : Environment) (link : Option Link) (chunk : Data) (encoding : Option JSString)
    (m : OutgoingMessage) : Decidable (m.WriteFits env link chunk encoding) :=
  inferInstanceAs (Decidable (_ → _))

instance (env : Environment) (link : Option Link) (data : Option Data)
    (encoding : Option JSString) (m : OutgoingMessage) :
    Decidable (m.EndFits env link data encoding) :=
  inferInstanceAs (Decidable (_ → _))

theorem write_follows (lossless : Lossless link) (env : Environment) {chunk : Data}
    (fits : m.WriteFits env link chunk encoding) :
    Follows m.output (m.write link (implicitHeader env link) chunk encoding)
      ((m.holding []).write (some .open_) (implicitHeader env (some .open_)) chunk encoding) := by
  by_cases finished : m.finished = true
  · rw [write_of_finished _ _ _ _ finished,
      write_of_finished _ _ _ _ (show (m.holding []).finished = true from finished)]
    exact .refl m
  have unfinished : m.finished = false := Bool.eq_false_iff.mpr finished
  have unfinished' : (m.holding []).finished = false := unfinished
  rw [write_eq chunk encoding unfinished, write_eq chunk encoding unfinished']
  have first := ensureHeader_follows lossless env m
  have rest := sends_follows lossless (carries_body chunk encoding _) (fits unfinished)
  rw [← first.same] at rest
  have body : ((m.holding []).ensureHeader (implicitHeader env (some .open_))).1.body chunk
      encoding = (m.ensureHeader (implicitHeader env link)).1.body chunk encoding := by
    rw [first.same]
    rfl
  simp only [body]
  exact first.trans rest

theorem withLength_held (data : Option Data) (encoding : Option JSString) (m : OutgoingMessage) :
    (m.holding []).withLength data encoding = (m.withLength data encoding).holding [] := by
  simp only [withLength, apply_ite (holding [])]
  rfl

theorem end_follows (lossless : Lossless link) (env : Environment) {data : Option Data}
    (fits : m.EndFits env link data encoding) :
    Follows m.output (m.end_ link (implicitHeader env link) data encoding)
      ((m.holding []).end_ (some .open_) (implicitHeader env (some .open_)) data encoding) := by
  by_cases finished : m.finished = true
  · rw [end_of_finished _ _ _ _ finished,
      end_of_finished _ _ _ _ (show (m.holding []).finished = true from finished)]
    exact .refl m
  have unfinished : m.finished = false := Bool.eq_false_iff.mpr finished
  have unfinished' : (m.holding []).finished = false := unfinished
  have output : (m.withLength data encoding).output = m.output := by rw [withLength_eq]
  rw [end_eq_of_heads (heads_implicitHeader env link) data encoding unfinished,
    end_eq_of_heads (heads_implicitHeader env _) data encoding unfinished', withLength_held,
    ← output]
  have first := ensureHeader_follows lossless env (m.withLength data encoding)
  have rest := sends_follows lossless (carries_ending data encoding _) (fits unfinished)
  rw [← first.same] at rest
  have ending : (((m.withLength data encoding).holding []).ensureHeader
      (implicitHeader env (some .open_))).1.ending data encoding =
        ((m.withLength data encoding).ensureHeader (implicitHeader env link)).1.ending data
          encoding := by
    rw [first.same]
    rfl
  simp only [ending]
  exact (first.trans rest).close

/-! ## Something is held -/

/-- A message that waits holds something, once its header is sent. -/
structure Pending (m : OutgoingMessage) : Prop where
  header : m.headerText ≠ []
  output : m.headerSent = true → m.output ≠ []

theorem writeRaw_pending (some_ : m.output ≠ [] ∨ piece.data.length ≠ 0) :
    (m.writeRaw none piece).1.output ≠ [] := by
  rw [writeRaw]
  split
  · rename_i empty
    exact some_.resolve_right (not_not_intro empty)
  · exact append_ne_nil_of_right_ne_nil _ (cons_ne_nil _ _)

section

variable (pending : Pending m)
include pending

theorem Pending.send (piece : Piece) :
    Pending (m.send none piece).1 ∧ (m.send none piece).1.output ≠ [] := by
  have output : (m.send none piece).1.output ≠ [] := by
    rw [OutgoingMessage.send]
    split
    · rename_i sent
      exact writeRaw_pending (.inl (pending.output sent))
    split
    · refine writeRaw_pending (.inr ?_)
      simpa [Data.length] using fun empty => absurd empty pending.header
    · exact writeRaw_pending (.inl (cons_ne_nil _ _))
  refine ⟨⟨?_, fun _ => output⟩, output⟩
  rw [headerText, send_header]
  exact pending.header

theorem Pending.sends (pieces : List Piece) :
    Pending (m.sends none pieces).1 ∧ (pieces ≠ [] → (m.sends none pieces).1.output ≠ []) := by
  induction pieces generalizing m with
  | nil => exact ⟨pending, fun none => absurd rfl none⟩
  | cons piece pieces ih =>
    obtain ⟨first, output⟩ := pending.send piece
    obtain ⟨rest, output'⟩ := ih first
    refine ⟨rest, fun _ => ?_⟩
    by_cases last : pieces = []
    · subst last
      exact output
    · exact output' last

theorem Pending.ensureHeader (env : Environment) :
    Pending (m.ensureHeader (implicitHeader env none)).1 := by
  rw [OutgoingMessage.ensureHeader]
  split
  · rename_i none
    rw [implicitHeader_eq env _ (isNone_iff_eq_none.mp none)]
    generalize m.implicitMessage = m'
    have stored : Pending (m'.stored env m.implicitLine m.implicitFields) := by
      refine ⟨?_, fun sent => by cases sent⟩
      rw [headerText, stored_header]
      simp [crlf]
    rw [storeHeaders_eq]
    split
    · exact (stored.send _).1
    · exact stored
  · exact pending

theorem Pending.write (env : Environment) (chunk : Data) (encoding : Option JSString) :
    Pending (m.write none (implicitHeader env none) chunk encoding).1 := by
  by_cases finished : m.finished = true
  · rw [write_of_finished _ _ _ _ finished]
    exact pending
  rw [write_eq chunk encoding (Bool.eq_false_iff.mpr finished)]
  exact ((pending.ensureHeader env).sends _).1

theorem Pending.end_ (env : Environment) (data : Option Data) (encoding : Option JSString) :
    Pending (m.end_ none (implicitHeader env none) data encoding).1 ∧ (m.finished = false →
        (m.end_ none (implicitHeader env none) data encoding).1.output ≠ []) := by
  by_cases finished : m.finished = true
  · rw [end_of_finished _ _ _ _ finished]
    refine ⟨pending, fun unfinished => ?_⟩
    rw [finished] at unfinished
    cases unfinished
  have pending' : Pending (m.withLength data encoding) := by
    rw [withLength_eq]
    exact ⟨pending.header, pending.output⟩
  obtain ⟨rest, output⟩ := (pending'.ensureHeader env).sends
    (((m.withLength data encoding).ensureHeader (implicitHeader env none)).1.ending data encoding)
  rw [end_eq_of_heads (heads_implicitHeader env none) data encoding
    (Bool.eq_false_iff.mpr finished)]
  exact ⟨⟨rest.header, rest.output⟩,
    fun _ => output (append_ne_nil_of_right_ne_nil _ (cons_ne_nil _ _))⟩

end

end OutgoingMessage

end IoJs.Http
