import IoJs.Crypto.ClientHelloParser

/-!
# What the first record decides

`Parse` sees the first record and whatever has arrived with it. The loop over the extensions
ends where the bytes end, not where the record ends, so that the outcome can depend on what
follows the record and on how the bytes arrive. It does not just if the record is refused, or
taken for something else than a `ClientHello`, by bytes of its own.
-/

namespace IoJs.Crypto

open ClientHelloParser List

/-! ## Streams and segments -/

/-- One call of `Parse`. -/
structure Segment where
  avail : Nat
  data : Memory

/-- The call sees the first bytes of a stream. -/
def Segment.Shows (stream : List UInt8) (segment : Segment) : Prop :=
  segment.avail ≤ stream.length ∧ ∀ i < segment.avail, stream[i]? = some (segment.data i)

/-- What the calls come to. -/
inductive Outcome where
  | undecided
  | ended
  | hello (hello : ClientHello)
  deriving DecidableEq

/-- The outcome of one call. -/
def outcomeOf : ClientHelloParser × Option Callback → Outcome
  | (_, some (.onhello hello)) => .hello hello
  | (p, _) => if p.state = .ended then .ended else .undecided

/-- The outcome of one call after the other, up to the first that decides. -/
def outcome (p : ClientHelloParser) : List Segment → Outcome
  | [] => if p.state = .ended then .ended else .undecided
  | segment :: segments =>
    let result := parse segment.data segment.avail p
    if outcomeOf result = .undecided then outcome result.1 segments else outcomeOf result

/-- A stream that begins with a record arrives in growing parts, at last with the record. -/
structure Arrives (record rest : List UInt8) (segments : List Segment) : Prop where
  shows : ∀ segment ∈ segments, segment.Shows (record ++ rest)
  grows : segments.Pairwise fun earlier later => earlier.avail ≤ later.avail
  complete : ∃ segment ∈ segments, record.length ≤ segment.avail

/-- A list of bytes, as memory. -/
def memoryOf (bytes : List UInt8) : Memory := fun i => bytes.getD i 0

/-- A TLS record: five bytes, the last two of which are the length of the rest. -/
def IsRecord (record : List UInt8) : Prop := record.length = 5 + (memoryOf record).word 3

/-- The outcome does not depend on what follows the record, nor on how it arrives. -/
def Independent (p : ClientHelloParser) (record : List UInt8) : Prop :=
  ∀ rest rest' segments segments', Arrives record rest segments →
    Arrives record rest' segments' → outcome p segments = outcome p segments'

/-! ## The header -/

section Header

variable {p : ClientHelloParser} {onend : Bool} {avail frameLen : Nat} {data : Memory}

/-- The parser after the five bytes of a header. -/
def headed (p : ClientHelloParser) (frameLen : Nat) : ClientHelloParser :=
  { p with frameLen, state := .tlsHeader, bodyOffset := 5 }

/-- `Parse` goes on after the header. -/
def goodHeader (data : Memory) : Bool :=
  (data 0 = kChangeCipherSpec ∨ data 0 = kAlert ∨ data 0 = kHandshake ∨
    data 0 = kApplicationData) ∧ data.word 3 < kMaxTLSFrameLen

theorem outcomeOf_end (p : ClientHelloParser) : outcomeOf (end_ p) = .ended := by
  unfold end_
  split
  · rename_i ended
    simp [outcomeOf, ended]
  · cases p.onend <;> simp [outcomeOf]

theorem parse_waiting_short (data : Memory) (waiting : p.state = .waiting)
    (short : avail < 5) : parse data avail p = (p, none) := by
  simp [parse, waiting, parseRecordHeader, short]

theorem parse_waiting_good (waiting : p.state = .waiting)
    (long : 5 ≤ avail) (good : goodHeader data = true) :
    parse data avail p = parseHeader data avail (headed p (data.word 3)) := by
  simp only [goodHeader, Bool.decide_and, Bool.and_eq_true, decide_eq_true_eq] at good
  simp only [parse, waiting, parseRecordHeader, if_neg (Nat.not_lt.mpr long), if_pos good.1,
    if_neg (Nat.not_le.mpr good.2)]
  rfl

theorem parse_waiting_bad (waiting : p.state = .waiting)
    (long : 5 ≤ avail) (bad : goodHeader data = false) :
    outcomeOf (parse data avail p) = .ended := by
  simp only [goodHeader, Bool.decide_and, Bool.and_eq_false_iff, decide_eq_false_iff_not] at bad
  simp only [parse, waiting, parseRecordHeader, if_neg (Nat.not_lt.mpr long)]
  by_cases kind : data 0 = kChangeCipherSpec ∨ data 0 = kAlert ∨ data 0 = kHandshake ∨
      data 0 = kApplicationData
  · have big : kMaxTLSFrameLen ≤ data.word 3 := by
      rcases bad with bad | bad
      · exact absurd kind bad
      · exact Nat.le_of_not_lt bad
    simpa [kind, big] using outcomeOf_end _
  · simpa [kind] using outcomeOf_end _

theorem parse_tlsHeader (state : p.state = .tlsHeader) :
    parse data avail p = parseHeader data avail p := by
  simp only [parse, state]

theorem parseHeader_short (short : avail < 5 + frameLen) :
    parseHeader data avail (headed p frameLen) = (headed p frameLen, none) := by
  have more : (headed p frameLen).bodyOffset + (headed p frameLen).frameLen > avail := short
  simp [parseHeader, more]

/-- The version that a hello is refused for. -/
def badVersion (data : Memory) : Bool := data 9 ≠ 0x03 ∨ data 10 < 0x01 ∨ data 10 > 0x03

/-- `ParseTLSClientHello` and the check after it. -/
def acceptsHello (data : Memory) (avail : Nat) (p : ClientHelloParser) : Bool :=
  let (parsed, p) := parseTLSClientHello data avail p
  parsed && p.sessionId.any (fun offset =>
    decide (p.sessionSize ≤ 32) && decide (offset + p.sessionSize.toNat ≤ avail))

theorem outcomeOf_parseHeader (covered : 5 + frameLen ≤ avail) :
    outcomeOf (parseHeader data avail (headed p frameLen)) = if badVersion data then .ended
      else if data 5 = kClientHello then
        if acceptsHello data avail (headed p frameLen) then
          .hello (hello data (parseTLSClientHello data avail (headed p frameLen)).2)
        else .ended
      else .hello (hello data (headed p frameLen)) := by
  have whole : ¬ (headed p frameLen).bodyOffset + (headed p frameLen).frameLen > avail :=
    Nat.not_lt.mpr covered
  have offset : (headed p frameLen).bodyOffset = 5 := rfl
  have state : (headed p frameLen).state = .tlsHeader := rfl
  rw [parseHeader, if_neg whole, offset]
  by_cases bad : data 9 ≠ 0x03 ∨ data 10 < 0x01 ∨ data 10 > 0x03
  · have refused : badVersion data = true := decide_eq_true bad
    rw [if_pos bad, outcomeOf_end, refused, if_pos rfl]
  have plain : badVersion data = false := decide_eq_false bad
  rw [if_neg bad, plain, if_neg Bool.false_ne_true]
  by_cases kind : data 5 = kClientHello
  · simp only [if_pos kind, if_pos state]
    by_cases accepted : acceptsHello data avail (headed p frameLen) = true
    · have checked := accepted
      simp only [acceptsHello] at checked
      simp only [checked, if_true, if_pos accepted]
      rfl
    have checked := accepted
    simp only [acceptsHello] at checked
    simpa [checked, accepted] using outcomeOf_end _
  simp only [if_neg kind]
  rfl

theorem outcomeOf_parseHeader_ne (covered : 5 + frameLen ≤ avail) :
    outcomeOf (parseHeader data avail (headed p frameLen)) ≠ .undecided := by
  rw [outcomeOf_parseHeader covered]
  split
  · simp
  split
  · split <;> simp
  · simp

end Header

/-! ## The first call that sees the record -/

variable {i : Nat}

theorem memoryOf_eq {bytes : List UInt8} {byte : UInt8} (at_ : bytes[i]? = some byte) :
    memoryOf bytes i = byte := by
  simp [memoryOf, getD_eq_getElem?_getD, at_]

variable {record rest : List UInt8}

theorem Segment.Shows.eq {segment : Segment}
    (shows_ : segment.Shows (record ++ rest)) (inside : i < record.length)
    (there : i < segment.avail) : segment.data i = memoryOf record i := by
  have byte := shows_.2 i there
  rw [List.getElem?_append_left inside] at byte
  exact (memoryOf_eq byte).symm

variable {data data' : Memory}

theorem Memory.word_congr (first : data i = data' i)
    (second : data (i + 1) = data' (i + 1)) : data.word i = data'.word i := by
  simp [Memory.word, first, second]

theorem goodHeader_congr (same : ∀ i < 5, data i = data' i) :
    goodHeader data = goodHeader data' := by
  simp [goodHeader, Memory.word_congr (same 3 (by decide)) (same 4 (by decide)), same 0 (by decide)]

variable {p : ClientHelloParser}

theorem outcome_eq (waiting : p.state = .waiting)
    (isRecord : IsRecord record) (good : goodHeader (memoryOf record) = true)
    (segments : List Segment) (shows_ : ∀ segment ∈ segments, segment.Shows (record ++ rest))
    (complete : ∃ segment ∈ segments, record.length ≤ segment.avail) (q : ClientHelloParser)
    (before : q = p ∨ q = headed p ((memoryOf record).word 3)) :
    ∃ segment ∈ segments, record.length ≤ segment.avail ∧
      outcome q segments = outcomeOf (parseHeader segment.data segment.avail
        (headed p ((memoryOf record).word 3))) := by
  have size : record.length = 5 + (memoryOf record).word 3 := isRecord
  induction segments generalizing q with
  | nil =>
    obtain ⟨segment, member, -⟩ := complete
    cases member
  | cons segment segments ih =>
    have sees := shows_ segment mem_cons_self
    -- a call with a header comes to `ParseHeader`
    have parsed : 5 ≤ segment.avail ∨ q = headed p ((memoryOf record).word 3) →
        parse segment.data segment.avail q =
          parseHeader segment.data segment.avail (headed p ((memoryOf record).word 3)) := by
      intro header
      rcases before with rfl | rfl
      · rcases header with long | same
        · have same : ∀ i < 5, segment.data i = memoryOf record i := by
            intro i small
            exact sees.eq (by omega) (by omega)
          have word : segment.data.word 3 = (memoryOf record).word 3 :=
            Memory.word_congr (same 3 (by decide)) (same 4 (by decide))
          rw [← goodHeader_congr same] at good
          rw [parse_waiting_good waiting long good, word]
        rw [same] at waiting
        cases waiting
      · exact parse_tlsHeader rfl
    by_cases covered : record.length ≤ segment.avail
    · refine ⟨segment, mem_cons_self, covered, ?_⟩
      have decided : outcomeOf (parseHeader segment.data segment.avail
          (headed p ((memoryOf record).word 3))) ≠ .undecided :=
        outcomeOf_parseHeader_ne (size ▸ covered)
      rw [outcome, parsed (.inl (by omega)), if_neg decided]
    -- not yet: the parser waits for the header or for the rest
    have later : ∃ s ∈ segments, record.length ≤ s.avail := by grind
    have shows_' : ∀ s ∈ segments, s.Shows (record ++ rest) :=
      fun s member => shows_ s (mem_cons_of_mem _ member)
    have next : outcomeOf (parse segment.data segment.avail q) = .undecided ∧
        ((parse segment.data segment.avail q).1 = p ∨
          (parse segment.data segment.avail q).1 = headed p ((memoryOf record).word 3)) := by
      by_cases header : 5 ≤ segment.avail ∨ q = headed p ((memoryOf record).word 3)
      · rw [parsed header, parseHeader_short (by omega)]
        exact ⟨rfl, .inr rfl⟩
      have short : segment.avail < 5 := by omega
      obtain rfl : q = p := before.resolve_right fun same => header (.inr same)
      rw [parse_waiting_short _ waiting short]
      refine ⟨?_, .inl rfl⟩
      simp [outcomeOf, waiting]
    obtain ⟨s, member, long, eq⟩ := ih shows_' later _ next.2
    refine ⟨s, mem_cons_of_mem _ member, long, ?_⟩
    rw [outcome, if_pos next.1, eq]

theorem outcome_bad (waiting : p.state = .waiting) (isRecord : IsRecord record)
    (bad : goodHeader (memoryOf record) = false) (segments : List Segment)
    (shows_ : ∀ segment ∈ segments, segment.Shows (record ++ rest))
    (complete : ∃ segment ∈ segments, record.length ≤ segment.avail) :
    outcome p segments = .ended := by
  have size : record.length = 5 + (memoryOf record).word 3 := isRecord
  induction segments with
  | nil =>
    obtain ⟨segment, member, -⟩ := complete
    cases member
  | cons segment segments ih =>
    have sees := shows_ segment mem_cons_self
    by_cases long : 5 ≤ segment.avail
    · have same : ∀ i < 5, segment.data i = memoryOf record i := by
        intro i small
        exact sees.eq (by omega) (by omega)
      rw [← goodHeader_congr same] at bad
      have ended := parse_waiting_bad waiting long bad
      simp [outcome, ended]
    have short := parse_waiting_short segment.data waiting (Nat.lt_of_not_le long)
    have undecided : outcomeOf (p, none) = .undecided := by simp [outcomeOf, waiting]
    rw [outcome, short, undecided, if_pos rfl]
    apply ih (fun s member => shows_ s (mem_cons_of_mem _ member))
    obtain ⟨s, member, covered⟩ := complete
    rcases mem_cons.mp member with rfl | member
    · omega
    · exact ⟨s, member, covered⟩

/-! ## A `ClientHello` -/

section Hello

variable {data : Memory} {avail : Nat} {p : ClientHelloParser} {off stop : Nat}

theorem serverNames_session (base len stop fuel offset : Nat) (p : ClientHelloParser) :
    (serverNames data base len stop fuel offset p).sessionSize = p.sessionSize ∧
      (serverNames data base len stop fuel offset p).sessionId = p.sessionId := by
  induction fuel generalizing offset p with
  | zero => exact ⟨rfl, rfl⟩
  | succ =>
    rw [serverNames]
    split
    · grind
    · exact ⟨rfl, rfl⟩

theorem parseExtension_session (data : Memory) (type base len : Nat) (p : ClientHelloParser) :
    (parseExtension data type base len p).sessionSize = p.sessionSize ∧
      (parseExtension data type base len p).sessionId = p.sessionId := by
  unfold parseExtension
  split
  · split
    · exact ⟨rfl, rfl⟩
    dsimp only
    split
    · exact ⟨rfl, rfl⟩
    · exact serverNames_session _ _ _ _ _ _
  split
  · split
    · exact ⟨rfl, rfl⟩
    split
    · exact ⟨rfl, rfl⟩
    · exact ⟨rfl, rfl⟩
  split
  · exact ⟨rfl, rfl⟩
  · exact ⟨rfl, rfl⟩

theorem parseExtensions_session (fuel extOff : Nat) (p : ClientHelloParser) :
    (parseExtensions data avail fuel extOff p).2.sessionSize = p.sessionSize ∧
      (parseExtensions data avail fuel extOff p).2.sessionId = p.sessionId := by
  induction fuel generalizing extOff p with
  | zero => exact ⟨rfl, rfl⟩
  | succ fuel ih =>
    rw [parseExtensions]
    split
    · split
      · exact ⟨rfl, rfl⟩
      dsimp only
      split
      · exact ⟨rfl, rfl⟩
      obtain ⟨size, id⟩ := ih (extOff + 4 + data.word (extOff + 2))
        (parseExtension data (data.word extOff) (extOff + 4) (data.word (extOff + 2)) p)
      obtain ⟨size', id'⟩ := parseExtension_session data (data.word extOff)
        (extOff + 4) (data.word (extOff + 2)) p
      exact ⟨size.trans size', id.trans id'⟩
    · exact ⟨rfl, rfl⟩

/-- Where the extensions begin, with the two bytes of their length. -/
def extensionOffset (data : Memory) : Nat :=
  let cipherOffset := 44 + (data 43).toNat
  let compOffset := cipherOffset + 2 + data.word cipherOffset
  compOffset + 1 + (data compOffset).toNat

/-- The parser after the session id. -/
def withSession (data : Memory) (p : ClientHelloParser) : ClientHelloParser :=
  { p with sessionSize := data 43, sessionId := some 44 }

section

variable (offset : p.bodyOffset = 5)
include offset

theorem parseTLSClientHello_unfold : parseTLSClientHello data avail p =
    if 44 ≥ avail then (false, p)
    else if 44 + (data 43).toNat + 1 ≥ avail then (false, withSession data p)
    else if 44 + (data 43).toNat + 2 + data.word (44 + (data 43).toNat) ≥ avail then
      (false, withSession data p)
    else if extensionOffset data > avail then (false, withSession data p)
    else if extensionOffset data = avail then (true, withSession data p)
    else parseExtensions data avail avail (extensionOffset data + 2) (withSession data p) := by
  have session : p.bodyOffset + 4 + 2 + 32 = 43 := by rw [offset]
  rw [parseTLSClientHello, session]
  rfl

theorem parseTLSClientHello_eq (reach : extensionOffset data ≤ avail) :
    parseTLSClientHello data avail p =
      if extensionOffset data = avail then (true, withSession data p)
      else parseExtensions data avail avail (extensionOffset data + 2) (withSession data p) := by
  have offsets : extensionOffset data = 44 + (data 43).toNat + 2 +
      data.word (44 + (data 43).toNat) + 1 + (data (44 + (data 43).toNat + 2 +
        data.word (44 + (data 43).toNat))).toNat := rfl
  rw [parseTLSClientHello_unfold offset, if_neg (by omega), if_neg (by omega), if_neg (by omega),
    if_neg (by omega)]

theorem parseTLSClientHello_reach
    (parsed : (parseTLSClientHello data avail p).1 = true) : extensionOffset data ≤ avail := by
  by_contra short
  rw [parseTLSClientHello_unfold offset, if_pos (Nat.lt_of_not_le short)] at parsed
  split at parsed
  · cases parsed
  split at parsed
  · cases parsed
  split at parsed <;> cases parsed

theorem parseTLSClientHello_session (parsed : (parseTLSClientHello data avail p).1 = true) :
    (parseTLSClientHello data avail p).2.sessionSize = data 43 ∧
      (parseTLSClientHello data avail p).2.sessionId = some 44 := by
  rw [parseTLSClientHello_eq offset (parseTLSClientHello_reach offset parsed)]
  split
  · exact ⟨rfl, rfl⟩
  · exact parseExtensions_session _ _ _

end

theorem acceptsHello_eq (p : ClientHelloParser) (frameLen : Nat) :
    acceptsHello data avail (headed p frameLen) =
      ((parseTLSClientHello data avail (headed p frameLen)).1 && decide (data 43 ≤ 32)) := by
  cases parsed : (parseTLSClientHello data avail (headed p frameLen)).1 with
  | false => simp [acceptsHello, parsed]
  | true =>
    obtain ⟨size, id⟩ := parseTLSClientHello_session rfl parsed
    have reach := parseTLSClientHello_reach rfl parsed
    have inside : 44 + (data 43).toNat ≤ avail := by
      simp only [extensionOffset] at reach
      omega
    simp [acceptsHello, parsed, size, id, inside]

/-! ## Where the extensions end -/

/-- The loop over the extensions comes to an offset, if the bytes go on. -/
inductive Walk (data : Memory) : Nat → Nat → Prop
  | done (stop : Nat) : Walk data stop stop
  | step {off stop : Nat} : Walk data (off + 4 + data.word (off + 2)) stop → Walk data off stop

theorem Walk.le (walk : Walk data off stop) : off ≤ stop := by
  induction walk with
  | done => exact Nat.le_refl _
  | step _ ih => omega

theorem Walk.exists_ge (data : Memory) (target off : Nat) :
    ∃ stop, target ≤ stop ∧ Walk data off stop := by
  induction h : target - off using Nat.strong_induction_on generalizing off with
  | h left ih =>
    by_cases there : target ≤ off
    · exact ⟨off, there, .done off⟩
    obtain ⟨stop, ge, walk⟩ := ih _ (by omega) (off + 4 + data.word (off + 2)) rfl
    exact ⟨stop, ge, .step walk⟩

theorem Walk.accepted (walk : Walk data off stop) (fuel : Nat)
    (enough : stop ≤ off + fuel) (p : ClientHelloParser) :
    (parseExtensions data stop fuel off p).1 = true := by
  induction walk generalizing fuel p with
  | done stop => cases fuel <;> simp [parseExtensions]
  | @step off stop walk ih =>
    have le := walk.le
    obtain ⟨fuel, rfl⟩ : ∃ n, fuel = n + 1 := Nat.exists_eq_add_one.mpr (by omega)
    rw [parseExtensions, if_pos (by omega), if_neg (by omega)]
    rw [if_neg (by omega)]
    exact ih fuel (by omega) _

theorem Walk.refused (walk : Walk data off stop) (fuel : Nat)
    (enough : stop < off + fuel) (p : ClientHelloParser) :
    (parseExtensions data (stop + 1) fuel off p).1 = false := by
  induction walk generalizing fuel p with
  | done stop =>
    obtain ⟨fuel, rfl⟩ : ∃ n, fuel = n + 1 := Nat.exists_eq_add_one.mpr (by omega)
    simp [parseExtensions]
  | @step off stop walk ih =>
    have le := walk.le
    obtain ⟨fuel, rfl⟩ : ∃ n, fuel = n + 1 := Nat.exists_eq_add_one.mpr (by omega)
    rw [parseExtensions, if_pos (by omega), if_neg (by omega)]
    rw [if_neg (by omega)]
    exact ih fuel (by omega) _

theorem parseTLSClientHello_split (data : Memory) (target : Nat) :
    ∃ avail ≥ target, ∀ p : ClientHelloParser, p.bodyOffset = 5 →
      (parseTLSClientHello data avail p).1 = true ∧
        (parseTLSClientHello data (avail + 1) p).1 = false := by
  by_cases there : target ≤ extensionOffset data
  · refine ⟨extensionOffset data, there, ?_⟩
    intro p offset
    constructor
    · rw [parseTLSClientHello_eq offset (Nat.le_refl _), if_pos rfl]
    · grind [parseTLSClientHello_eq, parseExtensions]
  obtain ⟨stop, ge, walk⟩ := Walk.exists_ge data target (extensionOffset data + 2)
  refine ⟨stop, ge, ?_⟩
  intro p offset
  constructor
  · rw [parseTLSClientHello_eq offset (by omega), if_neg (by omega)]
    exact walk.accepted stop (by omega) _
  rw [parseTLSClientHello_eq offset (by omega), if_neg (by omega)]
  exact walk.refused (stop + 1) (by omega) _

end Hello

/-! ## Records that decide -/

/-- The record is refused, or taken for something else than a `ClientHello`, for a byte of its
own. -/
def Decided (record : List UInt8) : Prop :=
  let data := memoryOf record
  goodHeader data = false ∨ (5 ≤ data.word 3 ∧ data 9 ≠ 0x03) ∨
    (6 ≤ data.word 3 ∧ (data 10 < 0x01 ∨ data 10 > 0x03 ∨ data 5 ≠ kClientHello)) ∨
    (39 ≤ data.word 3 ∧ data 43 > 32)

section Records

variable {p : ClientHelloParser} {record rest : List UInt8} {segments : List Segment}
variable {data : Memory} {avail : Nat}

theorem start_waiting (ended : p.state = .ended) (onend : Bool) :
    (start p onend).state = .waiting := by
  simp [start, ended]

theorem hello_start (ended : p.state = .ended) (onend : Bool) (frameLen : Nat)
    (data data' : Memory) :
    hello data (headed (start p onend) frameLen) =
      hello data' (headed (start p onend) frameLen) := by
  simp [hello, headed, start, reset, ended]

/-- What a record that decides comes to. -/
def verdict (p : ClientHelloParser) (record : List UInt8) : Outcome :=
  if goodHeader (memoryOf record) = false ∨ badVersion (memoryOf record) = true ∨
      memoryOf record 5 = kClientHello then .ended
  else .hello (hello (memoryOf record) (headed p ((memoryOf record).word 3)))

theorem outcomeOf_decided (ended : p.state = .ended) (onend : Bool) (isRecord : IsRecord record)
    (good : goodHeader (memoryOf record) = true) (decided : Decided record) {segment : Segment}
    (shows_ : segment.Shows (record ++ rest)) (covered : record.length ≤ segment.avail) :
    outcomeOf (parseHeader segment.data segment.avail
      (headed (start p onend) ((memoryOf record).word 3))) = verdict (start p onend) record := by
  have size : record.length = 5 + (memoryOf record).word 3 := isRecord
  have same : ∀ i < record.length, segment.data i = memoryOf record i :=
    fun i inside => shows_.eq inside (by omega)
  rw [outcomeOf_parseHeader (size ▸ covered), verdict, good]
  rcases decided with bad | ⟨long, major⟩ | ⟨long, minor⟩ | ⟨long, session⟩
  · rw [good] at bad
    cases bad
  · have bad : badVersion (memoryOf record) = true := decide_eq_true (.inl major)
    have bad' : badVersion segment.data = true := by
      rw [← same 9 (by omega)] at major
      exact decide_eq_true (.inl major)
    rw [if_pos bad', if_pos (.inr (.inl bad))]
  · have version : badVersion segment.data = badVersion (memoryOf record) := by
      rw [badVersion, badVersion, same 9 (by omega), same 10 (by omega)]
    rw [version, same 5 (by omega)]
    by_cases bad : badVersion (memoryOf record) = true
    · rw [if_pos bad, if_pos (.inr (.inl bad))]
    have kind : memoryOf record 5 ≠ kClientHello := by
      rcases minor with low | high | kind
      · exact absurd (decide_eq_true (.inr (.inl low))) bad
      · exact absurd (decide_eq_true (.inr (.inr high))) bad
      · exact kind
    simpa [bad, kind] using congrArg Outcome.hello (hello_start ended onend _ _ _)
  have version : badVersion segment.data = badVersion (memoryOf record) := by
    rw [badVersion, badVersion, same 9 (by omega), same 10 (by omega)]
  have refused : acceptsHello segment.data segment.avail
      (headed (start p onend) ((memoryOf record).word 3)) = false := by
    rw [← same 43 (by omega)] at session
    rw [acceptsHello_eq, decide_eq_false (by simpa using session), Bool.and_false]
  rw [version, same 5 (by omega), refused]
  by_cases bad : badVersion (memoryOf record) = true
  · rw [if_pos bad, if_pos (.inr (.inl bad))]
  rw [if_neg bad]
  by_cases kind : memoryOf record 5 = kClientHello
  · rw [if_pos kind, if_neg Bool.false_ne_true, if_pos (.inr (.inr kind))]
  rw [if_neg kind, if_neg (by simp [bad, kind])]
  exact congrArg Outcome.hello (hello_start ended onend _ _ _)

theorem outcome_decided (ended : p.state = .ended) (onend : Bool) (isRecord : IsRecord record)
    (decided : Decided record) (arrives : Arrives record rest segments) :
    outcome (start p onend) segments = verdict (start p onend) record := by
  have waiting := start_waiting ended onend
  cases good : goodHeader (memoryOf record) with
  | false =>
    rw [outcome_bad waiting isRecord good segments arrives.shows arrives.complete, verdict,
      if_pos (.inl good)]
  | true =>
    obtain ⟨segment, member, covered, eq⟩ := outcome_eq waiting isRecord good segments
      arrives.shows arrives.complete (start p onend) (.inl rfl)
    rw [eq]
    exact outcomeOf_decided ended onend isRecord good decided (arrives.shows segment member)
      covered

/-! ## Records that do not -/

/-- A record with what may follow it. -/
def completed (record : List UInt8) : Memory := fun i =>
  if i < record.length then memoryOf record i
  else if i = 5 then kClientHello else if i = 9 then 0x03 else if i = 10 then 0x01 else 0

theorem completed_eq {i : Nat} (inside : i < record.length) :
    completed record i = memoryOf record i := if_pos inside

theorem arrives_once
    (same : ∀ i < record.length, data i = memoryOf record i) (covered : record.length ≤ avail) :
    Arrives record (data.bytes record.length (avail - record.length)) [⟨avail, data⟩] := by
  refine ⟨?_, pairwise_singleton _ _, ⟨_, mem_singleton_self _, covered⟩⟩
  intro segment member
  obtain rfl := mem_singleton.mp member
  have sizes : (data.bytes record.length (avail - record.length)).length =
      avail - record.length := by simp [Memory.bytes]
  constructor
  · grind
  intro i there
  dsimp only at there ⊢
  by_cases inside : i < record.length
  · rw [List.getElem?_append_left inside, same i inside, memoryOf,
      getD_eq_getElem?_getD, List.getElem?_eq_getElem inside, Option.getD_some]
  rw [List.getElem?_append_right (Nat.le_of_not_lt inside), Memory.bytes, List.getElem?_map,
    List.getElem?_range (by omega), Option.map_some,
    Nat.add_sub_cancel' (Nat.le_of_not_lt inside)]

theorem outcome_once (waiting : p.state = .waiting)
    (isRecord : IsRecord record) (good : goodHeader (memoryOf record) = true)
    (same : ∀ i < record.length, data i = memoryOf record i) (covered : record.length ≤ avail) :
    outcome p [⟨avail, data⟩] =
      outcomeOf (parseHeader data avail (headed p ((memoryOf record).word 3))) := by
  have arrives := arrives_once same covered
  obtain ⟨segment, member, -, eq⟩ := outcome_eq waiting isRecord good _ arrives.shows
    arrives.complete p (.inl rfl)
  obtain rfl := mem_singleton.mp member
  exact eq

theorem badVersion_completed (isRecord : IsRecord record) (undecided : ¬ Decided record) :
    badVersion (completed record) = false := by
  have size : record.length = 5 + (memoryOf record).word 3 := isRecord
  simp only [Decided, not_or, not_and, not_not] at undecided
  obtain ⟨-, major, minor, -⟩ := undecided
  apply decide_eq_false
  simp only [not_or, not_not]
  constructor
  · by_cases inside : 9 < record.length
    · rw [completed_eq inside]
      exact major (by omega)
    · simp [completed, inside]
  by_cases inside : 10 < record.length
  · rw [completed_eq inside]
    exact ⟨(minor (by omega)).1, (minor (by omega)).2.1⟩
  · simp [completed, inside]

theorem session_completed (isRecord : IsRecord record) (undecided : ¬ Decided record) :
    completed record 43 ≤ 32 := by
  have size : record.length = 5 + (memoryOf record).word 3 := isRecord
  simp only [Decided, not_or, not_and, not_not] at undecided
  by_cases inside : 43 < record.length
  · rw [completed_eq inside]
    exact UInt8.not_lt.mp (undecided.2.2.2 (by omega))
  · simp [completed, inside]

theorem not_independent_hello (ended : p.state = .ended) (onend : Bool)
    (isRecord : IsRecord record) (undecided : ¬ Decided record)
    (kind : completed record 5 = kClientHello) : ¬ Independent (start p onend) record := by
  intro independent
  have size : record.length = 5 + (memoryOf record).word 3 := isRecord
  have good : goodHeader (memoryOf record) = true :=
    Bool.eq_true_of_not_eq_false fun bad => undecided (.inl bad)
  have waiting := start_waiting ended onend
  have version := badVersion_completed isRecord undecided
  have session := session_completed isRecord undecided
  obtain ⟨avail, covered, split⟩ := parseTLSClientHello_split (completed record) record.length
  obtain ⟨accepted, refused⟩ := split (headed (start p onend) ((memoryOf record).word 3)) rfl
  have same := independent _ _ _ _ (arrives_once (fun i => completed_eq) covered)
    (arrives_once (fun i => completed_eq) (Nat.le_succ_of_le covered))
  rw [outcome_once waiting isRecord good (fun i => completed_eq) covered,
    outcome_once waiting isRecord good (fun i => completed_eq) (Nat.le_succ_of_le covered),
    outcomeOf_parseHeader (by omega), outcomeOf_parseHeader (by omega), version,
    acceptsHello_eq, acceptsHello_eq, accepted, refused, if_pos kind, if_pos kind] at same
  simp [session] at same

theorem not_independent_short (ended : p.state = .ended) (onend : Bool)
    (isRecord : IsRecord record) (undecided : ¬ Decided record)
    (kind : completed record 5 ≠ kClientHello) : ¬ Independent (start p onend) record := by
  intro independent
  have size : record.length = 5 + (memoryOf record).word 3 := isRecord
  have good : goodHeader (memoryOf record) = true :=
    Bool.eq_true_of_not_eq_false fun bad => undecided (.inl bad)
  have waiting := start_waiting ended onend
  have version := badVersion_completed isRecord undecided
  have inside : 5 < record.length := by
    by_contra outside
    exact kind (by simp [completed, outside])
  have short : record.length ≤ 10 := by
    by_contra long
    rw [completed_eq inside] at kind
    exact undecided (.inr (.inr (.inl ⟨by omega, .inr (.inr kind)⟩)))
  let other : Memory := fun i => if i = 10 then 0 else completed record i
  have agrees : ∀ i < record.length, other i = memoryOf record i := by
    intro i small
    have ne : i ≠ 10 := by omega
    simp [other, ne, completed_eq small]
  have bad : badVersion other = true := by
    apply decide_eq_true
    simp [other]
  have same := independent _ _ _ _ (arrives_once (fun i => completed_eq) (Nat.le_succ_of_le short))
    (arrives_once agrees (Nat.le_succ_of_le short))
  rw [outcome_once waiting isRecord good (fun i => completed_eq) (Nat.le_succ_of_le short),
    outcome_once waiting isRecord good agrees (Nat.le_succ_of_le short),
    outcomeOf_parseHeader (by omega), outcomeOf_parseHeader (by omega), version, bad,
    if_neg kind] at same
  simp at same

/-- The outcome depends on the first record only, if and only if the record decides by bytes of
its own. -/
theorem first_record_decides (ended : p.state = .ended) (onend : Bool)
    (isRecord : IsRecord record) : Independent (start p onend) record ↔ Decided record := by
  constructor
  · intro independent
    by_contra undecided
    by_cases kind : completed record 5 = kClientHello
    · exact not_independent_hello ended onend isRecord undecided kind independent
    · exact not_independent_short ended onend isRecord undecided kind independent
  intro decided rest rest' segments segments' arrives arrives'
  rw [outcome_decided ended onend isRecord decided arrives,
    outcome_decided ended onend isRecord decided arrives']

end Records

/-- An alert decides, as it is no handshake of a known version. -/
theorem first_record_decides_alert :
    Independent (start new true) [21, 3, 1, 0, 6, 2, 40, 0, 0, 3, 0] ↔
      Decided [21, 3, 1, 0, 6, 2, 40, 0, 0, 3, 0] :=
  first_record_decides rfl true rfl

/-- A `ClientHello` without extensions. -/
def plainHello : List UInt8 :=
  [22, 3, 1, 0, 45, 1, 0, 0, 41, 3, 1] ++ List.replicate 32 0 ++ [0, 0, 2, 0, 47, 1, 0]

/-- It is reported if it arrives alone, and the parser ends if the first byte of the next record
arrives with it. -/
theorem hello_lost_to_next_record : IsRecord plainHello ∧
    outcome (start new true) [⟨50, memoryOf plainHello⟩] ≠ .ended ∧
    outcome (start new true) [⟨51, memoryOf (plainHello ++ [22])⟩] = .ended ∧
    ¬ Independent (start new true) plainHello := by
  have alone : outcome (start new true) [⟨50, memoryOf plainHello⟩] ≠ .ended := by decide
  have followed : outcome (start new true) [⟨51, memoryOf (plainHello ++ [22])⟩] = .ended := by
    decide
  refine ⟨rfl, alone, followed, ?_⟩
  intro independent
  have same := independent _ _ [⟨50, memoryOf plainHello⟩]
    [⟨51, memoryOf (plainHello ++ [22])⟩] (arrives_once (by decide) (by decide))
    (arrives_once (by decide) (by decide))
  exact alone same

end IoJs.Crypto
