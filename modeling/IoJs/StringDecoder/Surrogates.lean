import IoJs.StringDecoder.Utf16

/-!
# Surrogate pairs that are cut

A decoder that keeps another code unit in the place of a lead surrogate writes that code unit,
whatever comes. So the results are the text just if no chunk brings the decoder there.
-/

namespace IoJs.StringDecoder

open IoJs.Library IoJs.Stream List

variable {toString : ToString} {d : StringDecoder}
variable {charBuffer odd chunk more rest pending : List UInt8} {other trail : UInt16}
  {charLength : Nat}

/-! ## A wrong code unit is written -/

theorem writeRest_starts {first : UInt16} {units : JSString}
    (buffer : List UInt8) (size : charBuffer.length = 6)
    (plain : endsInLead (first :: units) = false) :
    ∃ tail, (writeRest toString d buffer (first :: units) charBuffer).2 = first :: tail := by
  obtain ⟨charBuffer', -, done⟩ := writeRest_eq toString d buffer (first :: units) size
  rw [done]
  split
  · rename_i leads
    cases text : units ++ toString d.encoding (d.body buffer) with
    | nil =>
      rw [cons_append, text, ← (append_eq_nil_iff.mp text).1, plain] at leads
      cases leads
    | cons second more =>
      refine ⟨(second :: more).dropLast, ?_⟩
      rw [cons_append, text]
      rfl
  · exact ⟨_, rfl⟩

theorem splitChar_stale (ucs2 : Ucs2 toString d) (fuel : Nat) (plain : isLead trail = false)
    (keeps : Keeps charBuffer (unitBytes other ++ odd)) (short : odd.length ≤ 1)
    (sent : odd ++ chunk ++ more = unitBytes trail ++ rest) :
    (∃ charBuffer', Keeps charBuffer' (unitBytes other ++ (odd ++ chunk)) ∧
      (odd ++ chunk).length ≤ 1 ∧
      splitChar toString d (fuel + 1) chunk charBuffer 4 (unitBytes other ++ odd).length =
        .returns (keeping d charBuffer' (unitBytes other ++ (odd ++ chunk)) 4) []) ∨
    (∃ charBuffer' tail, charBuffer'.length = 6 ∧
      splitChar toString d (fuel + 1) chunk charBuffer 4 (unitBytes other ++ odd).length =
        if tail = [] then .returns (keeping d charBuffer' [] 0) [other, trail]
        else .goesOn tail [other, trail] charBuffer') := by
  have room : (unitBytes other ++ odd).length ≤ 4 := by
    rw [length_append, length_unitBytes]
    omega
  rcases append_eq_append_cases sent with ⟨left, open_, cut, -⟩ | ⟨tail, cut, -⟩
  · -- the second code unit is not complete
    left
    have less := congrArg List.length cut
    rw [length_unitBytes, length_append] at less
    have := length_pos_iff.mpr open_
    obtain ⟨charBuffer', keeps', done⟩ := splitChar_short toString d fuel keeps
      (show 4 ≤ 6 by decide)
      (show (unitBytes other ++ odd).length + chunk.length < 4 by
        rw [length_append] at less ⊢
        rw [length_unitBytes]
        omega)
    exact ⟨charBuffer', keeps', by omega, done⟩
  right
  have bytes : unitBytes other ++ odd ++ chunk = unitBytes other ++ unitBytes trail ++ tail := by
    rw [append_assoc, cut, append_assoc]
  have long : 4 ≤ (unitBytes other ++ odd).length + chunk.length := by
    rw [← length_append, bytes, length_append, length_append, length_unitBytes, length_unitBytes]
    omega
  obtain ⟨charBuffer', keeps', done⟩ := splitChar_long toString d fuel keeps
    (show 4 ≤ 6 by decide) room long
  have units : ucs2Slice (unitBytes other ++ unitBytes trail) = [other, trail] := by
    have alone := ucs2Slice_unitBytes trail []
    rw [append_nil, ucs2Slice_nil] at alone
    rw [ucs2Slice_unitBytes, alone]
  have take : (unitBytes other ++ unitBytes trail ++ tail).take 4 =
      unitBytes other ++ unitBytes trail := take_left' rfl
  have drop : (unitBytes other ++ unitBytes trail ++ tail).drop 4 = tail := drop_left' rfl
  rw [take_pending chunk room, drop_pending chunk room, bytes, take, drop, ucs2.decodes, units,
    endsInLead_pair, plain] at done
  exact ⟨charBuffer', tail, keeps'.size, done⟩

/-- The wrong code unit is written, or still kept with what follows it. -/
def WritesOrKeeps (d : StringDecoder) (other : UInt16) (odd : List UInt8)
    (written : StringDecoder × JSString) : Prop :=
  (∃ tail, written.2 = other :: tail) ∨
    ∃ charBuffer, Keeps charBuffer (unitBytes other ++ odd) ∧ odd.length ≤ 1 ∧
      written = (keeping d charBuffer (unitBytes other ++ odd) 4, [])

theorem write_stale_of_round (ucs2 : Ucs2 toString d) (fuel : Nat)
    (plain : isLead trail = false) {middle : List UInt8}
    (nonzero : charLength ≠ 0) (keeps : Keeps middle (unitBytes other ++ odd))
    (short : odd.length ≤ 1) (sent : odd ++ chunk ++ more = unitBytes trail ++ rest)
    (round : splitChar toString (keeping d charBuffer (unitBytes other ++ odd) charLength)
        (chunk.length + 1 + 1) chunk charBuffer charLength (unitBytes other ++ odd).length =
      splitChar toString (keeping d charBuffer (unitBytes other ++ odd) charLength)
        (fuel + 1) chunk middle 4 (unitBytes other ++ odd).length) :
    WritesOrKeeps d other (odd ++ chunk)
      (write toString (keeping d charBuffer (unitBytes other ++ odd) charLength) chunk) := by
  have same : Ucs2 toString (keeping d charBuffer (unitBytes other ++ odd) charLength) :=
    ⟨ucs2.detector, ucs2.surrogateSize, ucs2.decodes⟩
  rw [write_waiting toString ucs2.detects _ _ _ nonzero, round]
  rcases splitChar_stale same fuel plain keeps short sent with
    ⟨charBuffer', keeps', short', done⟩ | ⟨charBuffer', tail, size, done⟩
  · right
    rw [done]
    exact ⟨charBuffer', keeps', short', rfl⟩
  left
  rw [done]
  by_cases complete : tail = []
  · rw [if_pos complete]
    exact ⟨[trail], rfl⟩
  rw [if_neg complete]
  exact writeRest_starts tail size (by rw [endsInLead_pair, plain])

theorem write_stale (ucs2 : Ucs2 toString d) (plain : isLead trail = false)
    (keeps : Keeps charBuffer (unitBytes other ++ odd))
    (waits : charLength = 2 ∧ odd = [] ∨ charLength = 4 ∧ odd.length ≤ 1)
    (sent : odd ++ chunk ++ more = unitBytes trail ++ rest) :
    WritesOrKeeps d other (odd ++ chunk)
      (write toString (keeping d charBuffer (unitBytes other ++ odd) charLength) chunk) := by
  have same : Ucs2 toString (keeping d charBuffer (unitBytes other ++ odd) charLength) :=
    ⟨ucs2.detector, ucs2.surrogateSize, ucs2.decodes⟩
  rcases waits with ⟨rfl, rfl⟩ | ⟨rfl, short⟩
  · by_cases leads : isLead other = true
    · obtain ⟨middle, keeps', round⟩ := splitChar_lead same (chunk.length + 1) leads keeps
        (Nat.le_refl 2) rfl
      exact write_stale_of_round ucs2 chunk.length plain (by decide) keeps' (by decide) sent round
    -- a code unit that is no lead surrogate is written at once
    left
    have not : isLead other = false := by simpa using leads
    rw [append_nil] at keeps same ⊢
    obtain ⟨middle, keeps', done⟩ := splitChar_long toString
      (keeping d charBuffer (unitBytes other) 2) (chunk.length + 1) keeps (by decide)
      (Nat.le_refl 2) (show 2 ≤ 2 + chunk.length from Nat.le_add_right 2 _)
    have unit : ucs2Slice (unitBytes other) = [other] := by
      have alone := ucs2Slice_unitBytes other []
      rwa [append_nil, ucs2Slice_nil] at alone
    have nothing : 2 - (unitBytes other).length = 0 := rfl
    rw [nothing, take_zero, drop_zero, append_nil, same.decodes, unit,
      endsInLead_singleton, not] at done
    rw [write_waiting toString ucs2.detects _ _ _ (by decide), done]
    by_cases complete : chunk = []
    · rw [if_neg (by decide), if_pos complete]
      exact ⟨[], rfl⟩
    rw [if_neg (by decide), if_neg complete]
    exact writeRest_starts chunk keeps'.size (by rw [endsInLead_singleton, not])
  · exact write_stale_of_round ucs2 (chunk.length + 1) plain (by decide) keeps short sent rfl

theorem writes_stale (ucs2 : Ucs2 toString d) (plain : isLead trail = false)
    (chunks : List (List UInt8)) (keeps : Keeps charBuffer (unitBytes other ++ odd))
    (waits : charLength = 2 ∧ odd = [] ∨ charLength = 4 ∧ odd.length ≤ 1)
    (sent : odd ++ chunks.flatten = unitBytes trail ++ rest) :
    ∃ tail, (writes toString
      (keeping d charBuffer (unitBytes other ++ odd) charLength) chunks).1.flatten =
        other :: tail := by
  induction chunks generalizing charBuffer odd charLength with
  | nil =>
    -- the second code unit is still to come
    have size := congrArg List.length sent
    rw [flatten_nil, append_nil, length_append, length_unitBytes] at size
    rcases waits with ⟨-, rfl⟩ | ⟨-, short⟩
    · rw [length_nil] at size
      omega
    · omega
  | cons chunk chunks ih =>
    rw [flatten_cons, ← append_assoc] at sent
    rcases write_stale ucs2 plain keeps waits sent with
      ⟨tail, written⟩ | ⟨charBuffer', keeps', short, written⟩
    · simp only [writes, flatten_cons, written]
      exact ⟨_, rfl⟩
    simp only [writes, flatten_cons, written, nil_append]
    exact ih keeps' (.inr ⟨rfl, short⟩) sent

/-! ## The whole text -/

theorem Waiting.nil {rest : List Char}
    (waiting : Waiting pending rest charLength) (sent : pending = utf16leEncode rest) :
    pending = [] ∧ rest = [] ∧ charLength = 0 := by
  cases waiting with
  | none =>
    refine ⟨rfl, ?_, rfl⟩
    cases rest with
    | nil => rfl
    | cons c rest =>
      have size := congrArg List.length sent
      have positive := utf16leEncodeChar_pos c
      rw [utf16leEncode_cons, length_append, length_nil] at size
      omega
  | @part _ left c rest _ cut started open_ waits =>
    have positive := length_pos_iff.mpr open_
    have size := congrArg List.length sent
    rw [utf16leEncode_cons, cut, length_append, length_append] at size
    omega

/-- After the chunks before it, the rest of a chunk that comes after the split character begins
with the lead surrogate that it ends in, if it ends in one. -/
def CutsWell (text : List Char) (received : Nat) (chunks : List (List UInt8)) : Prop :=
  ∀ before chunk after, chunks = before ++ chunk :: after →
    LeadFirst (chunk.drop (missing text (received + before.flatten.length)))

theorem cutsWell_cons {now rest : List Char} {pending' : List UInt8}
    {chunks : List (List UInt8)} (received : pending ++ chunk = utf16leEncode now ++ pending') :
    CutsWell (now ++ rest) pending.length (chunk :: chunks) ↔
      LeadFirst (chunk.drop (missing (now ++ rest) pending.length)) ∧
        CutsWell rest pending'.length chunks := by
  have size := congrArg List.length received
  rw [length_append, length_append] at size
  have later : ∀ before : List (List UInt8),
      missing (now ++ rest) (pending.length + (chunk :: before).flatten.length) =
        missing rest (pending'.length + before.flatten.length) := by
    intro before
    rw [← missing_append now rest, flatten_cons, length_append]
    congr 1
    omega
  constructor
  · intro well
    refine ⟨well [] chunk chunks rfl, ?_⟩
    rintro before other after rfl
    have here := well (chunk :: before) other after rfl
    rwa [later] at here
  rintro ⟨first, well⟩ before other after eq
  cases before with
  | nil =>
    cases eq
    exact first
  | cons head before =>
    cases eq
    rw [later]
    exact well before other after rfl

/-- The text comes out exactly if the chunks are cut well. -/
theorem writes_utf16_iff (ucs2 : Ucs2 toString d) (chunks : List (List UInt8)) {rest : List Char}
    (keeps : Keeps charBuffer pending) (waiting : Waiting pending rest charLength)
    (sent : pending ++ chunks.flatten = utf16leEncode rest) :
    (writes toString (keeping d charBuffer pending charLength) chunks).1.flatten ++
        (writes toString (keeping d charBuffer pending charLength) chunks).2.end_ toString =
      utf16Encode rest ↔ CutsWell rest pending.length chunks := by
  induction chunks generalizing rest charBuffer pending charLength with
  | nil =>
    rw [flatten_nil, append_nil] at sent
    obtain ⟨rfl, rfl, rfl⟩ := waiting.nil sent
    refine iff_of_true rfl ?_
    intro before chunk after eq
    cases before <;> cases eq
  | cons chunk chunks ih =>
    rw [flatten_cons, ← append_assoc] at sent
    obtain ⟨now, rest', pending', charBuffer', held, charLength', rfl, received, left, keeps',
      written, kept⟩ := write_utf16 ucs2 keeps waiting chunk _ sent
    rw [cutsWell_cons received]
    simp only [writes, written, flatten_cons, utf16Encode_append, append_assoc,
      append_cancel_left_eq]
    rcases kept with ⟨rfl, waiting', first⟩ | ⟨stale, bad⟩
    · rw [ih keeps' waiting' left]
      exact ⟨fun well => ⟨first, well⟩, fun well => well.2⟩
    -- the lead surrogate is lost for good
    refine iff_of_false ?_ (fun well => bad well.1)
    cases stale with
    | @intro c lead trail other odd rest pair differs short =>
      obtain ⟨unit, -, single, -⟩ | ⟨lead', trail', word, units, -, plain⟩ :=
        utf16leEncodeChar_cases c
      · rw [pair] at single
        cases single
      rw [pair] at units
      cases units
      rw [utf16leEncode_cons, word, append_assoc, append_assoc, append_right_inj] at left
      have waits : 2 + 2 * odd.length = 2 ∧ odd = [] ∨ 2 + 2 * odd.length = 4 ∧ odd.length ≤ 1 := by
        rw [← length_eq_zero_iff]
        omega
      obtain ⟨tail, starts⟩ := writes_stale ucs2 plain chunks keeps' waits left
      intro equal
      rw [starts, utf16Encode_cons, pair] at equal
      exact differs (List.cons.inj equal).1

/-- `buffer.toString(encoding)`, with UTF-16LE as `StringSlice<UCS2>` has it. -/
def withUcs2 (other : ToString) : ToString := fun encoding bytes =>
  if encoding = "ucs2" ∨ encoding = "utf16le" then ucs2Slice bytes else other encoding bytes

theorem ucs2_new (other : ToString) {encoding : String}
    (utf16 : encoding = "utf16le" ∨ encoding = "ucs2") :
    Ucs2 (withUcs2 other) (new encoding) ∧
      new encoding = keeping (new encoding) (List.replicate 6 0) [] 0 := by
  rcases utf16 with rfl | rfl
  · have eq : new "utf16le" =
        { encoding := "utf16le", detector := .utf16, surrogateSize := 2,
          charBuffer := List.replicate 6 0, charReceived := 0, charLength := 0 } := by decide
    rw [eq]
    exact ⟨⟨rfl, rfl, fun _ => rfl⟩, rfl⟩
  · have eq : new "ucs2" =
        { encoding := "ucs2", detector := .utf16, surrogateSize := 2,
          charBuffer := List.replicate 6 0, charReceived := 0, charLength := 0 } := by decide
    exact ⟨⟨rfl, rfl, fun _ => rfl⟩, rfl⟩

/-- **When `StringDecoder('utf16le')` gives the text**: just if each chunk that ends in a lead
surrogate, or in one and an odd byte, has the same code unit as its first one after the character
that was split. -/
theorem decode_utf16_iff (other : ToString) {encoding : String}
    (utf16 : encoding = "utf16le" ∨ encoding = "ucs2") (text : List Char)
    (chunks : List (List UInt8)) (cut : chunks.flatten = utf16leEncode text) :
    decode (withUcs2 other) encoding chunks = utf16Encode text ↔
      ∀ before chunk after, chunks = before ++ chunk :: after →
        LeadFirst (chunk.drop (missing text before.flatten.length)) := by
  obtain ⟨ucs2, start⟩ := ucs2_new other utf16
  have empty : Keeps (List.replicate 6 0) [] := .nil rfl
  have iff := writes_utf16_iff ucs2 chunks empty .none (by simpa using cut)
  rw [← start] at iff
  simpa [decode, CutsWell] using iff

/-- A surrogate pair whose lead surrogate is a chunk of its own. -/
theorem decode_utf16_iff_of_pair :
    decode (withUcs2 fun _ _ => []) "utf16le" [[0x61, 0x00], [0x3D, 0xD8], [0x00, 0xDE]] =
      utf16Encode ['a', '😀'] := by
  refine (decode_utf16_iff (fun _ _ => []) (.inl rfl) ['a', '😀'] _ (by decide)).mpr ?_
  intro before chunk after eq
  rcases before with _ | ⟨first, _ | ⟨second, _ | ⟨third, more⟩⟩⟩
  · cases eq
    intro lead last leads
    cases last
    cases leads
  · cases eq
    intro lead last _
    exact last
  · cases eq
    intro lead last leads
    cases last
  · cases more <;> cases eq

/-- After `a` and a lead surrogate in one chunk, `a` is written in the place of the lead
surrogate. -/
theorem lead_surrogate_lost :
    [[0x61, 0x00, 0x3D, 0xD8], [0x00, 0xDE]].flatten = utf16leEncode ['a', '😀'] ∧
      decode (withUcs2 fun _ _ => []) "utf16le" [[0x61, 0x00, 0x3D, 0xD8], [0x00, 0xDE]] =
        [0x61, 0x61, 0xDE00] ∧
      utf16Encode ['a', '😀'] = [0x61, 0xD83D, 0xDE00] := by
  decide

end IoJs.StringDecoder
