import IoJs.Crypto.Reads

/-!
# Reads behind the end

Every length of a hello is checked before what it covers is read, and the extensions and the names
in them are read within their bounds. What is not checked is that a record is long enough for the
protocol version: `ParseHeader` waits for the record that the header announces and then reads its
bytes 4 and 5, which a record of fewer bytes does not have.
-/

namespace IoJs.Crypto

open Library Library.Reading

namespace Reads

variable {data : Memory} {avail base len stop offset extOff type : ℕ} {p : ClientHelloParser}
variable {arrived : ℕ}

@[simp]
theorem below_word {i : ℕ} : Below data avail (word i) ↔ i + 1 < avail := by
  simp only [Below, reads_word, List.mem_cons, List.not_mem_nil, or_false, forall_eq_or_imp,
    forall_eq]
  omega

/-! ## Extensions -/

theorem below_serverNames (inside : base + len ≤ avail) :
    Below data avail (serverNames base len stop offset p) := by
  induction offset, p using serverNames.induct base len stop with
  | case1 offset p more short =>
    rw [serverNames, if_pos more, if_pos short]
    exact below_pure p
  | case2 offset p more long ih =>
    rw [serverNames, if_pos more, if_neg long]
    refine below_bind.mpr ⟨below_cell.mpr (by omega), ?_⟩
    split
    · exact below_pure p
    refine below_bind.mpr ⟨below_word.mpr (by omega), ?_⟩
    split
    · exact below_pure p
    · exact ih _
  | case3 offset p done =>
    rw [serverNames, if_neg done]
    exact below_pure p

theorem below_parseExtension (inside : base + len ≤ avail) :
    Below data avail (parseExtension type base len p) := by
  unfold parseExtension
  split
  · split
    · exact below_pure p
    refine below_bind.mpr ⟨below_word.mpr (by omega), ?_⟩
    split
    · exact below_pure p
    · exact below_serverNames inside
  split
  · split
    · exact below_pure p
    rename_i long
    have pos : kMinStatusRequestSize = 5 := rfl
    refine below_bind.mpr ⟨below_cell.mpr (by omega), ?_⟩
    split <;> exact below_pure _
  · split <;> exact below_pure _

theorem below_parseExtensions : Below data avail (parseExtensions avail extOff p) := by
  induction extOff, p using parseExtensions.induct avail with
  | case1 extOff p more short =>
    rw [parseExtensions, if_pos more, if_pos short]
    exact below_pure _
  | case2 extOff p more long ih =>
    rw [parseExtensions, if_pos more, if_neg long]
    refine below_bind.mpr ⟨below_word.mpr (by omega),
      below_bind.mpr ⟨below_word.mpr (by omega), ?_⟩⟩
    split
    · exact below_pure _
    rename_i inside
    exact below_bind.mpr ⟨below_parseExtension (by omega), ih _ inside _⟩
  | case3 extOff p done =>
    rw [parseExtensions, if_neg done]
    exact below_pure _

theorem below_parseTLSClientHello : Below data avail (parseTLSClientHello avail p) := by
  unfold parseTLSClientHello
  dsimp only
  split
  · exact below_pure _
  refine below_bind.mpr ⟨below_cell.mpr (by omega), ?_⟩
  split
  · exact below_pure _
  refine below_bind.mpr ⟨below_word.mpr (by omega), ?_⟩
  split
  · exact below_pure _
  refine below_bind.mpr ⟨below_cell.mpr (by omega), ?_⟩
  split
  · exact below_pure _
  split
  · exact below_pure _
  · exact below_parseExtensions

/-! ## How much is read -/

@[simp]
theorem count_word (i : ℕ) : count data (word i) = 2 := rfl

theorem count_serverNames (inside : offset ≤ len) :
    count data (serverNames base len stop offset p) ≤ len - offset := by
  induction offset, p using serverNames.induct base len stop with
  | case1 offset p more short =>
    rw [serverNames, if_pos more, if_pos short]
    exact Nat.zero_le _
  | case2 offset p more long ih =>
    rw [serverNames, if_pos more, if_neg long, count_bind, count_cell]
    split
    · rw [count_pure]
      omega
    rw [count_bind, count_word, run_word]
    split
    · rw [count_pure]
      omega
    have rest := ih (data.word (base + offset + 1)) (by omega)
    omega
  | case3 offset p done =>
    rw [serverNames, if_neg done]
    exact Nat.zero_le _

theorem count_parseExtension : count data (parseExtension type base len p) ≤ len := by
  unfold parseExtension
  split
  · split
    · exact Nat.zero_le _
    rw [count_bind, count_word, run_word]
    split
    · rw [count_pure]
      omega
    have names : count data (serverNames base len (2 + data.word base) 2 p) ≤ len - 2 :=
      count_serverNames (by omega)
    omega
  split
  · split
    · exact Nat.zero_le _
    rename_i long
    have pos : kMinStatusRequestSize = 5 := rfl
    rw [count_bind, count_cell, run_cell]
    split <;>
    · rw [count_pure]
      omega
  · split <;> exact Nat.zero_le _

theorem count_parseExtensions : count data (parseExtensions avail extOff p) ≤ avail - extOff := by
  induction extOff, p using parseExtensions.induct avail with
  | case1 extOff p more short =>
    rw [parseExtensions, if_pos more, if_pos short]
    exact Nat.zero_le _
  | case2 extOff p more long ih =>
    rw [parseExtensions, if_pos more, if_neg long, count_bind, count_word, run_word, count_bind,
      count_word, run_word]
    by_cases outside : extOff + 4 + data.word (extOff + 2) > avail
    · rw [if_pos outside, count_pure]
      omega
    rw [if_neg outside, count_bind]
    generalize data.word (extOff + 2) = len at *
    have first : count data (parseExtension (data.word extOff) (extOff + 4) len p) ≤ len :=
      count_parseExtension
    have rest := ih len outside (run data (parseExtension (data.word extOff) (extOff + 4) len p))
    omega
  | case3 extOff p done =>
    rw [parseExtensions, if_neg done]
    exact Nat.zero_le _

theorem count_parseTLSClientHello : count data (parseTLSClientHello avail p) ≤ avail := by
  unfold parseTLSClientHello
  dsimp only
  split
  · exact Nat.zero_le _
  rw [count_bind, count_cell, run_cell]
  split
  · rw [count_pure]
    omega
  rw [count_bind, count_word, run_word]
  split
  · rw [count_pure]
    omega
  rw [count_bind, count_cell, run_cell]
  split
  · rw [count_pure]
    omega
  split
  · rw [count_pure]
    omega
  refine (Nat.add_le_add_left (Nat.add_le_add_left (Nat.add_le_add_left
    count_parseExtensions _) _) _).trans ?_
  omega

theorem count_parseHeader : count data (parseHeader avail p) ≤ avail + 3 := by
  unfold parseHeader
  split
  · exact Nat.zero_le _
  rw [count_bind, count_cell]
  split
  · rw [count_pure]
    omega
  rw [count_bind, count_cell]
  split
  · rw [count_pure]
    omega
  rw [count_bind, count_cell]
  have body : count data (parseTLSClientHello avail p) ≤ avail := count_parseTLSClientHello
  split
  · split
    · rw [count_bind]
      dsimp only
      split <;>
      · rw [count_pure]
        omega
    rw [count_pure]
    omega
  rw [count_pure]
  omega

theorem count_parseRecordHeader : count data (parseRecordHeader avail p) ≤ 3 := by
  unfold parseRecordHeader
  split
  · exact Nat.zero_le _
  rw [count_bind, count_cell]
  split
  · rw [count_bind, count_word]
    split <;> exact le_rfl
  · exact Nat.le_add_left 1 2

theorem count_parse : count data (parse avail p) ≤ avail + 6 := by
  unfold parse
  have header : count data (parseRecordHeader avail p) ≤ 3 := count_parseRecordHeader
  cases p.state with
  | waiting =>
    rw [count_bind]
    dsimp only
    split
    · refine (Nat.add_le_add header count_parseHeader).trans ?_
      omega
    rw [count_pure]
    omega
  | tlsHeader => exact count_parseHeader.trans (Nat.add_le_add_left (by decide) avail)
  | paused => exact Nat.zero_le _
  | ended => exact Nat.zero_le _

/-! ## The record header -/

theorem below_parseHeader (body : p.bodyOffset = 5) : Below data avail (parseHeader avail p) ↔
    (5 + p.frameLen ≤ avail → 9 < avail ∧ (data 9 = 0x03 → 10 < avail)) := by
  unfold parseHeader
  rw [body]
  split
  · rename_i short
    exact iff_of_true (below_pure _) fun arrived => absurd arrived (by omega)
  rename_i arrived
  rw [below_bind, below_cell, run_cell, imp_iff_right (by omega)]
  refine and_congr_right fun long => ?_
  by_cases major : data (5 + 4) = 0x03
  · rw [if_neg (not_not.mpr major), below_bind, below_cell, run_cell, imp_iff_right major]
    refine and_iff_left_of_imp fun longer => ?_
    split
    · exact below_pure _
    refine below_bind.mpr ⟨below_cell.mpr (by omega), ?_⟩
    split
    · split
      · refine below_bind.mpr ⟨below_parseTLSClientHello, ?_⟩
        dsimp only
        split <;> exact below_pure _
      · exact below_pure _
    · exact below_pure _
  rw [if_pos major]
  exact iff_of_true (below_pure _) fun same => absurd same major

/-- The types of records that are parsed on -/
def Known (data : Memory) : Prop :=
  data 0 = kChangeCipherSpec ∨ data 0 = kAlert ∨ data 0 = kHandshake ∨ data 0 = kApplicationData

/-- The record header has been parsed. -/
structure Parsed (data : Memory) (avail : ℕ) (p : ClientHelloParser) : Prop where
  arrived : 5 ≤ avail
  known : Known data
  body : p.bodyOffset = 5
  frame : p.frameLen = data.word 3

theorem state_end (p : ClientHelloParser) : (end_ p).1.state = .ended := by
  unfold end_ ClientHelloParser.end_
  split
  · assumption
  · rfl

theorem parseRecordHeader_cases (data : Memory) (avail : ℕ) (p : ClientHelloParser) :
    (run data (parseRecordHeader avail p) = (false, p, none) ∧ avail < 5) ∨
    (∃ q, run data (parseRecordHeader avail p) = (true, q, none) ∧ q.state = .tlsHeader ∧
      Parsed data avail q) ∨
    (∃ result, run data (parseRecordHeader avail p) = (false, result) ∧
      result.1.state = .ended ∧ (Known data → kMaxTLSFrameLen ≤ data.word 3)) := by
  unfold parseRecordHeader
  split
  · rename_i short
    exact .inl ⟨rfl, short⟩
  rename_i arrived
  rw [run_bind, run_cell]
  split
  · rename_i known
    rw [run_bind, run_word]
    split
    · rename_i big
      exact .inr (.inr ⟨_, rfl, state_end _, fun _ => big⟩)
    · exact .inr (.inl ⟨_, rfl, rfl, Nat.le_of_not_lt arrived, known, rfl, rfl⟩)
  rename_i unknown
  exact .inr (.inr ⟨_, rfl, state_end _, fun known => absurd known unknown⟩)

theorem below_parseRecordHeader : Below data avail (parseRecordHeader avail p) := by
  unfold parseRecordHeader
  split
  · exact below_pure _
  refine below_bind.mpr ⟨below_cell.mpr (by omega), ?_⟩
  split
  · refine below_bind.mpr ⟨below_word.mpr (by omega), ?_⟩
    split <;> exact below_pure _
  · exact below_pure _

theorem parseHeader_cases (data : Memory) (avail : ℕ) (p : ClientHelloParser) :
    (run data (parseHeader avail p)).1 = p ∨ (run data (parseHeader avail p)).1.state = .paused ∨
      (run data (parseHeader avail p)).1.state = .ended := by
  unfold parseHeader
  split
  · exact .inl rfl
  rw [run_bind, run_cell]
  split
  · exact .inr (.inr (state_end p))
  rw [run_bind, run_cell]
  split
  · exact .inr (.inr (state_end p))
  rw [run_bind, run_cell]
  split
  · split
    · rw [run_bind]
      dsimp only
      split
      · exact .inr (.inl rfl)
      · exact .inr (.inr (state_end _))
    · exact .inr (.inr (state_end p))
  · exact .inr (.inl rfl)

/-! ## Reachable parsers -/

/-- The parsers that `Start` and `Parse` lead to, for the same bytes. Of the parser that is started
only the state is known: it may have served for another handshake. -/
inductive Reachable (data : Memory) (avail : ℕ) : ClientHelloParser → Prop where
  | ended {p : ClientHelloParser} : p.state = .ended → Reachable data avail p
  | start {p : ClientHelloParser} (onend : Bool) :
      Reachable data avail p → Reachable data avail (p.start onend)
  | parse {p : ClientHelloParser} {arrived : ℕ} : arrived ≤ avail → Reachable data avail p →
      Reachable data avail (run data (Reads.parse arrived p)).1

/-- Where the header has been parsed, it is the header of these bytes. -/
def HeaderRead (data : Memory) (avail : ℕ) (p : ClientHelloParser) : Prop :=
  p.state = .tlsHeader → Parsed data avail p

theorem HeaderRead.start {onend : Bool} (read : HeaderRead data avail p) :
    HeaderRead data avail (p.start onend) := by
  unfold ClientHelloParser.start
  split
  · exact read
  intro header
  cases header

theorem HeaderRead.parseHeader (read : HeaderRead data avail p) :
    HeaderRead data avail (run data (Reads.parseHeader arrived p)).1 := by
  rcases parseHeader_cases data arrived p with same | paused | ended
  · rw [same]
    exact read
  · intro header
    rw [paused] at header
    cases header
  intro header
  rw [ended] at header
  cases header

theorem HeaderRead.parse (le : arrived ≤ avail) (read : HeaderRead data avail p) :
    HeaderRead data avail (run data (Reads.parse arrived p)).1 := by
  unfold Reads.parse
  cases state : p.state with
  | waiting =>
    rw [run_bind]
    rcases parseRecordHeader_cases data arrived p with
      ⟨short, -⟩ | ⟨q, parsed, -, header⟩ | ⟨result, failed, ended, -⟩
    · rw [short]
      exact read
    · rw [parsed]
      exact HeaderRead.parseHeader fun _ =>
        ⟨header.arrived.trans le, header.known, header.body, header.frame⟩
    rw [failed]
    intro header
    exact absurd (ended.symm.trans header) (by decide)
  | tlsHeader => exact read.parseHeader
  | paused => exact read
  | ended => exact read

theorem Reachable.headerRead (reachable : Reachable data avail p) : HeaderRead data avail p := by
  induction reachable with
  | ended ended =>
    intro header
    exact absurd (ended.symm.trans header) (by decide)
  | start onend _ ih => exact ih.start
  | parse le _ ih => exact ih.parse le

/-! ## Safety -/

/-- `Parse` reads what has arrived, and nothing else, and ends. -/
structure Safe (data : Memory) (avail : ℕ) (p : ClientHelloParser) : Prop where
  inside : Below data avail (parse avail p)
  ends : count data (parse avail p) ≤ avail + 6

/-- An active parser is given a record that is too short for the bytes that are read of it. -/
structure Exposed (data : Memory) (avail : ℕ) (p : ClientHelloParser) : Prop where
  active : p.state = .waiting ∨ p.state = .tlsHeader
  known : Known data
  arrived : 5 + data.word 3 ≤ avail
  short : avail ≤ 9 ∨ avail = 10 ∧ data 9 = 0x03

theorem below_parseHeader_iff (parsed : Parsed data avail p)
    (active : p.state = .waiting ∨ p.state = .tlsHeader) :
    Below data avail (parseHeader avail p) ↔ ¬Exposed data avail p := by
  rw [below_parseHeader parsed.body, parsed.frame]
  constructor
  · rintro enough ⟨-, -, arrived, short⟩
    obtain ⟨long, longer⟩ := enough arrived
    rcases short with short | ⟨exact10, major⟩
    · omega
    have := longer major
    omega
  intro covered arrived
  have long : 9 < avail := by
    by_contra short
    exact covered ⟨active, parsed.known, arrived, .inl (Nat.le_of_not_lt short)⟩
  refine ⟨long, fun major => ?_⟩
  by_contra short
  exact covered ⟨active, parsed.known, arrived, .inr ⟨by omega, major⟩⟩

theorem below_parse_iff (read : HeaderRead data avail p) :
    Below data avail (parse avail p) ↔ ¬Exposed data avail p := by
  unfold parse
  cases state : p.state with
  | waiting =>
    rw [below_bind, and_iff_right below_parseRecordHeader]
    rcases parseRecordHeader_cases data avail p with
      ⟨waits, short⟩ | ⟨q, parsed, active, header⟩ | ⟨result, failed, -, big⟩
    · rw [waits]
      refine iff_of_true (below_pure _) fun exposed => ?_
      have := exposed.arrived
      omega
    · rw [parsed]
      dsimp only
      rw [if_pos rfl, below_parseHeader_iff header (.inr active)]
      exact not_congr ⟨fun exposed => ⟨.inl state, exposed.known, exposed.arrived, exposed.short⟩,
        fun exposed => ⟨.inr active, exposed.known, exposed.arrived, exposed.short⟩⟩
    rw [failed]
    refine iff_of_true (below_pure _) fun exposed => ?_
    have long : kMaxTLSFrameLen ≤ data.word 3 := big exposed.known
    have arrived := exposed.arrived
    have limit : kMaxTLSFrameLen = 16389 := rfl
    rcases exposed.short with short | ⟨short, -⟩ <;> omega
  | tlsHeader => exact below_parseHeader_iff (read state) (.inr state)
  | paused | ended =>
    refine iff_of_true (below_pure _) fun exposed => ?_
    rcases exposed.active with active | active <;>
      exact absurd (state.symm.trans active) (by decide)

/-- **A reachable parser is safe** unless it is given a record that is too short. -/
theorem safe_iff (reachable : Reachable data avail p) :
    Safe data avail p ↔ ¬Exposed data avail p := by
  rw [← below_parse_iff reachable.headerRead]
  exact ⟨Safe.inside, fun inside => ⟨inside, count_parse⟩⟩

/-- The bytes of a list -/
def memory (bytes : List UInt8) : Memory := fun i => bytes.getD i 0

/-- A handshake record of six bytes is long enough. -/
theorem safe_six : Safe (memory [22, 3, 1, 0, 6, 1, 0, 0, 2, 3, 1]) 11 (.start .new true) :=
  (safe_iff (.start true (.ended rfl))).mpr fun exposed => by
    rcases exposed.short with short | ⟨short, -⟩
    · exact absurd short (by decide)
    · exact absurd short (by decide)

/-- The byte 9 is read of a handshake record without a body, which ends at the byte 5. -/
theorem empty_record_overread : ¬∀ (data : Memory) (avail : ℕ) (p : ClientHelloParser),
    Reachable data avail p → Safe data avail p := by
  intro safe
  have inside := (safe (memory [22, 3, 1, 0, 0]) 5 (.start .new true)
    (.start true (.ended rfl))).inside
  exact absurd (inside 9 (by decide)) (by decide)

end Reads

end IoJs.Crypto
