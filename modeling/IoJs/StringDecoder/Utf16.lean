import IoJs.Library.Words
import IoJs.StringDecoder.Write
import IoJs.Unicode
import Mathlib.Tactic.IntervalCases

/-!
# Decoding UTF-16LE

A character is one code unit or a surrogate pair, two bytes or four. A lead surrogate at the
end of a chunk is kept, with the odd byte that may follow it. `write` takes its bytes from the
start of the chunk, so that a chunk with text before the lead surrogate keeps the first code
unit of that text instead.
-/

namespace IoJs

open IoJs.Library IoJs.Stream List

/-! ## Code units and bytes -/

/-- `StringSlice<UCS2>` -/
def ucs2Slice : List UInt8 → JSString
  | lo :: hi :: rest => (lo.toUInt16 ||| hi.toUInt16 <<< 8) :: ucs2Slice rest
  | _ => []

@[simp] theorem ucs2Slice_nil : ucs2Slice [] = [] := rfl

/-- The bytes of a code unit, the low one first. -/
def unitBytes (unit : UInt16) : List UInt8 := [unit.toUInt8, (unit >>> 8).toUInt8]

/-- The UTF-16LE encoding of a scalar value. -/
def utf16leEncodeChar (c : Char) : List UInt8 := (utf16EncodeChar c).flatMap unitBytes

/-- The UTF-16LE encoding of a text. -/
def utf16leEncode (text : List Char) : List UInt8 := text.flatMap utf16leEncodeChar

@[simp] theorem utf16leEncode_nil : utf16leEncode [] = [] := rfl

@[simp] theorem utf16leEncode_cons (c : Char) (text : List Char) :
    utf16leEncode (c :: text) = utf16leEncodeChar c ++ utf16leEncode text := rfl

theorem unit_of_bytes (unit : UInt16) :
    unit.toUInt8.toUInt16 ||| (unit >>> 8).toUInt8.toUInt16 <<< 8 = unit := by
  apply UInt16.eq_of_toBitVec_eq
  simp only [UInt16.toBitVec_or, UInt16.toBitVec_shiftLeft, UInt8.toBitVec_toUInt16,
    UInt16.toBitVec_toUInt8, UInt16.toBitVec_shiftRight]
  ext i inside
  interval_cases i <;> simp [BitVec.getElem_setWidth]

@[simp] theorem ucs2Slice_unitBytes (unit : UInt16) (rest : List UInt8) :
    ucs2Slice (unitBytes unit ++ rest) = unit :: ucs2Slice rest := by
  simp only [unitBytes, cons_append, nil_append, ucs2Slice, unit_of_bytes]

theorem ucs2Slice_flatMap (units : JSString) (rest : List UInt8) :
    ucs2Slice (units.flatMap unitBytes ++ rest) = units ++ ucs2Slice rest := by
  induction units with
  | nil => rfl
  | cons unit units ih => simp [ucs2Slice_unitBytes, ih]

theorem utf16leEncode_eq (text : List Char) :
    utf16leEncode text = (utf16Encode text).flatMap unitBytes := by
  induction text with
  | nil => rfl
  | cons c text ih => simp [utf16leEncode_cons, ih, utf16Encode_cons, utf16leEncodeChar]

@[simp] theorem ucs2Slice_utf16leEncode (text : List Char) (rest : List UInt8) :
    ucs2Slice (utf16leEncode text ++ rest) = utf16Encode text ++ ucs2Slice rest := by
  rw [utf16leEncode_eq, ucs2Slice_flatMap]

theorem utf16leEncodeChar_cases (c : Char) :
    (∃ unit, utf16leEncodeChar c = unitBytes unit ∧ utf16EncodeChar c = [unit] ∧
      isLead unit = false) ∨
    (∃ lead trail, utf16leEncodeChar c = unitBytes lead ++ unitBytes trail ∧
      utf16EncodeChar c = [lead, trail] ∧ isLead lead = true ∧ isLead trail = false) := by
  obtain ⟨unit, eq, plain⟩ | ⟨lead, trail, eq, leads, plain⟩ := utf16EncodeChar_cases c
  · exact .inl ⟨unit, by rw [utf16leEncodeChar, eq, flatMap_singleton], eq, plain⟩
  refine .inr ⟨lead, trail, ?_, eq, leads, plain⟩
  simp [utf16leEncodeChar, eq]

theorem length_utf16leEncode (text : List Char) : (utf16leEncode text).length % 2 = 0 := by
  induction text with
  | nil => rfl
  | cons c =>
    rw [utf16leEncode_cons, length_append]
    obtain ⟨unit, eq, -⟩ | ⟨lead, trail, eq, -⟩ := utf16leEncodeChar_cases c
    · rw [eq, unitBytes]
      simp only [length_cons, length_nil]
      omega
    rw [eq, unitBytes, unitBytes]
    simp only [length_append, length_cons, length_nil]
    omega

namespace StringDecoder

/-- A decoder of UTF-16LE. -/
structure Ucs2 (toString : ToString) (d : StringDecoder) : Prop where
  detector : d.detector = .utf16
  surrogateSize : d.surrogateSize = 2
  decodes : ∀ bytes, toString d.encoding bytes = ucs2Slice bytes

variable {toString : ToString} {d : StringDecoder}
variable {pending charBuffer buffer left : List UInt8} {n charLength : Nat} {c : Char}
  {rest : List Char}

theorem Ucs2.detects (ucs2 : Ucs2 toString d) : d.detector ≠ .passThrough := by
  rw [ucs2.detector]
  decide

/-! ## The character that was split -/

/-- The length that the decoder waits for: of the first code unit, or of the pair. -/
def Waits (pending : List UInt8) (charLength : Nat) : Prop :=
  charLength = 2 ∧ pending.length ≤ 2 ∨ charLength = 4 ∧ 2 ≤ pending.length

theorem take_pending (buffer : List UInt8) (room : pending.length ≤ n) :
    pending ++ buffer.take (n - pending.length) = (pending ++ buffer).take n := by
  rw [take_append, take_of_length_le room]

theorem drop_pending (buffer : List UInt8) (room : pending.length ≤ n) :
    buffer.drop (n - pending.length) = (pending ++ buffer).drop n := by
  rw [drop_append, drop_of_length_le room, nil_append]

theorem endsInLead_singleton (unit : UInt16) : endsInLead [unit] = isLead unit := rfl

theorem endsInLead_pair (first second : UInt16) : endsInLead [first, second] = isLead second := rfl

theorem length_unitBytes (unit : UInt16) : (unitBytes unit).length = 2 := rfl

section

variable (ucs2 : Ucs2 toString d) (fuel : Nat)
include ucs2

theorem splitChar_lead {lead : UInt16} (leads : isLead lead = true) {rest : List UInt8}
    (keeps : Keeps charBuffer pending) (room : pending.length ≤ 2)
    (bytes : pending ++ buffer = unitBytes lead ++ rest) :
    ∃ charBuffer', Keeps charBuffer' (unitBytes lead) ∧
      splitChar toString d (fuel + 1) buffer charBuffer 2 pending.length =
        splitChar toString d fuel rest charBuffer' 4 (unitBytes lead).length := by
  have long : 2 ≤ pending.length + buffer.length := by
    rw [← length_append, bytes, length_append, length_unitBytes]
    omega
  obtain ⟨charBuffer', keeps', done⟩ := splitChar_long toString d fuel keeps (by decide) room long
  have take : (unitBytes lead ++ rest).take 2 = unitBytes lead := take_left' rfl
  have drop : (unitBytes lead ++ rest).drop 2 = rest := drop_left' rfl
  have unit : ucs2Slice (unitBytes lead) = [lead] := by simpa using ucs2Slice_unitBytes lead []
  rw [take_pending buffer room, bytes, take] at keeps'
  rw [take_pending buffer room, drop_pending buffer room, bytes, take, drop, ucs2.decodes, unit,
    endsInLead_singleton, leads, if_pos rfl, ucs2.surrogateSize] at done
  exact ⟨charBuffer', keeps', done⟩

theorem splitChar_open (keeps : Keeps charBuffer pending) (waits : Waits pending charLength)
    (cut : utf16leEncodeChar c = pending ++ buffer ++ left) (open_ : left ≠ []) :
    ∃ charBuffer' charLength', Keeps charBuffer' (pending ++ buffer) ∧
      Waits (pending ++ buffer) charLength' ∧
      splitChar toString d (fuel + 1 + 1) buffer charBuffer charLength pending.length =
        .returns (keeping d charBuffer' (pending ++ buffer) charLength') [] := by
  have less : pending.length + buffer.length < (utf16leEncodeChar c).length := by
    have positive := length_pos_iff.mpr open_
    rw [cut, length_append, length_append]
    omega
  rcases waits with ⟨rfl, room⟩ | ⟨rfl, room⟩
  · by_cases short : pending.length + buffer.length < 2
    · obtain ⟨charBuffer', keeps', done⟩ := splitChar_short toString d (fuel + 1) keeps
        (by decide) short
      refine ⟨charBuffer', 2, keeps', .inl ⟨rfl, ?_⟩, done⟩
      rw [length_append]
      omega
    obtain ⟨unit, word, -⟩ | ⟨lead, trail, word, -, leads, -⟩ := utf16leEncodeChar_cases c
    · rw [word, length_unitBytes] at less
      exact absurd less short
    -- the first code unit is complete, and is a lead surrogate
    obtain ⟨more, whole⟩ : ∃ more, pending ++ buffer = unitBytes lead ++ more := by
      rw [word] at cut
      rcases append_eq_append_cases cut.symm with ⟨more, open', whole, -⟩ | ⟨more, whole, -⟩
      · have size := congrArg List.length whole
        rw [length_unitBytes, length_append, length_append] at size
        have := length_pos_iff.mpr open'
        omega
      · exact ⟨more, whole⟩
    have size : 2 + more.length < 4 := by
      rw [← length_append, whole, word, length_append, length_append,
        length_unitBytes, length_unitBytes] at less
      omega
    obtain ⟨middle, keeps', first⟩ := splitChar_lead ucs2 (fuel + 1) leads keeps room whole
    obtain ⟨charBuffer', keeps'', done⟩ := splitChar_short toString d fuel keeps'
      (show 4 ≤ 6 by decide) size
    rw [whole]
    refine ⟨charBuffer', 4, keeps'', .inr ⟨rfl, ?_⟩, first.trans done⟩
    rw [length_append, length_unitBytes]
    omega
  have short : pending.length + buffer.length < 4 := by
    obtain ⟨unit, word, -⟩ | ⟨lead, trail, word, -⟩ := utf16leEncodeChar_cases c
    · rw [word, length_unitBytes] at less
      omega
    rw [word, length_append, length_unitBytes, length_unitBytes] at less
    exact less
  obtain ⟨charBuffer', keeps', done⟩ := splitChar_short toString d (fuel + 1) keeps
    (by decide) short
  refine ⟨charBuffer', 4, keeps', .inr ⟨rfl, ?_⟩, done⟩
  rw [length_append]
  omega

theorem splitChar_closed {rest : List UInt8}
    (keeps : Keeps charBuffer pending) (waits : Waits pending charLength)
    (part : pending.length < (utf16leEncodeChar c).length)
    (bytes : pending ++ buffer = utf16leEncodeChar c ++ rest) :
    ∃ charBuffer', charBuffer'.length = 6 ∧
      splitChar toString d (fuel + 1 + 1) buffer charBuffer charLength pending.length =
        if rest = [] then .returns (keeping d charBuffer' [] 0) (utf16EncodeChar c)
        else .goesOn rest (utf16EncodeChar c) charBuffer' := by
  -- the last round, with the whole character in `charBuffer`
  have finish : ∀ {fuel charBuffer pending} (buffer), Keeps charBuffer pending →
      pending.length ≤ (utf16leEncodeChar c).length →
      pending ++ buffer = utf16leEncodeChar c ++ rest →
      ∃ charBuffer', charBuffer'.length = 6 ∧
        splitChar toString d (fuel + 1) buffer charBuffer (utf16leEncodeChar c).length
            pending.length =
          if rest = [] then .returns (keeping d charBuffer' [] 0) (utf16EncodeChar c)
          else .goesOn rest (utf16EncodeChar c) charBuffer' := by
    intro fuel charBuffer pending buffer keeps room bytes
    have bound : (utf16leEncodeChar c).length ≤ 6 := by
      obtain ⟨unit, word, -⟩ | ⟨lead, trail, word, -⟩ := utf16leEncodeChar_cases c
      · rw [word, length_unitBytes]
        decide
      · simp [word, length_unitBytes]
    have long : (utf16leEncodeChar c).length ≤ pending.length + buffer.length := by
      rw [← length_append, bytes, length_append]
      omega
    obtain ⟨charBuffer', keeps', done⟩ := splitChar_long toString d fuel keeps bound room long
    have units : ucs2Slice (utf16leEncodeChar c) = utf16EncodeChar c := by
      simpa using ucs2Slice_utf16leEncode [c] []
    have plain : endsInLead (utf16EncodeChar c) = false := by
      have text := isLead_getLast_utf16Encode [c]
      rwa [utf16Encode_cons, utf16Encode_nil, append_nil] at text
    rw [take_pending buffer room, drop_pending buffer room, bytes, take_left,
      drop_left, ucs2.decodes, units, plain] at done
    exact ⟨charBuffer', keeps'.size, done⟩
  obtain ⟨unit, word, -⟩ | ⟨lead, trail, word, -, leads, -⟩ := utf16leEncodeChar_cases c
  · have two : (utf16leEncodeChar c).length = 2 := by rw [word, length_unitBytes]
    rcases waits with ⟨rfl, -⟩ | ⟨rfl, room⟩
    · rw [← two]
      exact finish buffer keeps (Nat.le_of_lt part) bytes
    · omega
  have four : (utf16leEncodeChar c).length = 4 := by simp [word, length_unitBytes]
  rcases waits with ⟨rfl, room⟩ | ⟨rfl, -⟩
  · obtain ⟨middle, keeps', first⟩ := splitChar_lead ucs2 (fuel + 1) leads keeps room
      (bytes.trans (by rw [word, append_assoc]))
    obtain ⟨charBuffer', size', done⟩ := finish (unitBytes trail ++ rest) keeps'
      (by rw [four, length_unitBytes]; decide) (by rw [word, append_assoc])
    rw [four] at done
    exact ⟨charBuffer', size', first.trans done⟩
  rw [← four]
  exact finish buffer keeps (Nat.le_of_lt part) bytes

end

/-! ## The rest of the buffer -/

theorem copyInto_eq {target source : List UInt8} {start : Nat}
    (fits : start + source.length ≤ target.length) :
    copyInto target start source =
      target.take start ++ source ++ target.drop (start + source.length) := by
  have whole : source.take (target.length - start) = source := take_of_length_le (by omega)
  simp only [copyInto, whole]

/-- The two copies: what was kept is moved behind the first two bytes, and others are put in
their place. -/
theorem keeps_shift {first : List UInt8} (keeps : Keeps charBuffer pending)
    (short : pending.length ≤ 1) (two : first.length = 2) :
    Keeps (copyInto (copyInto charBuffer 2 (charBuffer.take 2)) 0 first) (first ++ pending) := by
  have size := keeps.size
  have front : (charBuffer.take 2).length = 2 := by
    rw [length_take]
    omega
  have moved : (copyInto charBuffer 2 (charBuffer.take 2)).length = 6 := by
    rw [length_copyInto (by omega), size]
  constructor
  case size => rw [length_copyInto (by omega), moved]
  case pending =>
    rw [copyInto_eq (by omega), take_zero, nil_append, length_append,
      take_length_add_append, two, copyInto_eq (by omega), append_assoc,
      Nat.zero_add, drop_left' (by omega), take_append_of_le_length (by omega),
      take_take, Nat.min_eq_left (by omega), keeps.pending]

/-- If the code units end in a lead surrogate, they begin with it. -/
def LeadFirst (buffer : List UInt8) : Prop :=
  ∀ lead, (ucs2Slice buffer).getLast? = some lead → isLead lead = true →
    (ucs2Slice buffer).head? = some lead

/-- What the decoder should keep of a text, and the length that it waits for. -/
inductive Waiting : List UInt8 → List Char → Nat → Prop where
  | none {rest : List Char} : Waiting [] rest 0
  | part {pending left : List UInt8} {c : Char} {rest : List Char} {charLength : Nat}
      (cut : utf16leEncodeChar c = pending ++ left) (started : pending ≠ []) (open_ : left ≠ [])
      (waits : Waits pending charLength) : Waiting pending (c :: rest) charLength

/-- What the decoder should keep, and what it does keep: another code unit in the place of a lead
surrogate. -/
inductive Stale : List UInt8 → List Char → List UInt8 → Nat → Prop where
  | intro {c : Char} {lead trail other : UInt16} {odd : List UInt8} {rest : List Char}
      (pair : utf16EncodeChar c = [lead, trail]) (differs : other ≠ lead) (short : odd.length ≤ 1) :
      Stale (unitBytes lead ++ odd) (c :: rest) (unitBytes other ++ odd) (2 + 2 * odd.length)

/-- A part of a character that has no complete code unit, or a lead surrogate with at most one
byte after it. -/
theorem unfinished_cases (unfinished : Unfinished utf16leEncodeChar pending rest) :
    (pending.length ≤ 1 ∧ Waiting pending rest (if pending.length = 0 then 0 else 2)) ∨
    (∃ c lead trail odd rest', pending = unitBytes lead ++ odd ∧ rest = c :: rest' ∧
      utf16EncodeChar c = [lead, trail] ∧ isLead lead = true ∧ odd.length ≤ 1 ∧
      Waiting pending rest (2 + 2 * odd.length)) := by
  cases unfinished with
  | none => exact .inl ⟨by decide, .none⟩
  | @part _ left c rest cut started open_ =>
    have positive := length_pos_iff.mpr open_
    have some_ := length_pos_iff.mpr started
    have size := congrArg List.length cut
    rw [length_append] at size
    by_cases short : pending.length ≤ 1
    · left
      refine ⟨short, ?_⟩
      rw [if_neg (by omega)]
      exact .part cut started open_ (.inl ⟨rfl, by omega⟩)
    right
    obtain ⟨unit, word, -⟩ | ⟨lead, trail, word, units, leads, -⟩ := utf16leEncodeChar_cases c
    · rw [word, length_unitBytes] at size
      omega
    obtain ⟨odd, rfl⟩ : ∃ odd, pending = unitBytes lead ++ odd := by
      rw [word] at cut
      rcases append_eq_append_cases cut.symm with ⟨more, open', whole, -⟩ | ⟨odd, whole, -⟩
      · have size' := congrArg List.length whole
        rw [length_unitBytes, length_append] at size'
        have := length_pos_iff.mpr open'
        omega
      · exact ⟨odd, whole⟩
    rw [word, length_append, length_append, length_unitBytes, length_unitBytes] at size
    refine ⟨c, lead, trail, odd, rest, rfl, rfl, units, leads, by omega, ?_⟩
    refine .part cut started open_ ?_
    rw [Waits, length_append, length_unitBytes]
    omega

/-- The rest of a buffer, after characters that are decoded already: the characters in it are
decoded, and what is left is kept, or another code unit than the lead surrogate. -/
theorem writeRest_utf16 (ucs2 : Ucs2 toString d) (before now : List Char)
    (size : charBuffer.length = 6) (unfinished : Unfinished utf16leEncodeChar pending rest) :
    ∃ charBuffer' held charLength, Keeps charBuffer' held ∧
      writeRest toString d (utf16leEncode now ++ pending) (utf16Encode before) charBuffer =
        (keeping d charBuffer' held charLength, utf16Encode (before ++ now)) ∧
      (held = pending ∧ Waiting pending rest charLength ∧ LeadFirst (utf16leEncode now ++ pending) ∨
        Stale pending rest held charLength ∧ ¬ LeadFirst (utf16leEncode now ++ pending)) := by
  have kept_eq : ∀ buffer, d.kept buffer = buffer.length % 2 := by
    simp [kept, detectIncompleteChar, ucs2.detector]
  have next_eq : ∀ buffer, d.nextLength buffer = if buffer.length % 2 = 0 then 0 else 2 := by
    simp [nextLength, detectIncompleteChar, ucs2.detector]
  have even := length_utf16leEncode now
  obtain ⟨middle, keeps, done⟩ := writeRest_eq toString d (utf16leEncode now ++ pending)
    (utf16Encode before) size
  obtain ⟨short, waiting⟩ | ⟨c, lead, trail, odd, rest', rfl, rfl, units, leads, short, waiting⟩ :=
    unfinished_cases unfinished
  · -- no lead surrogate is left over
    have odd : (utf16leEncode now ++ pending).length % 2 = pending.length := by
      rw [length_append]
      omega
    have cut : (utf16leEncode now ++ pending).length - d.kept (utf16leEncode now ++ pending) =
        (utf16leEncode now).length := by
      rw [kept_eq, odd, length_append]
      omega
    have body_eq : d.body (utf16leEncode now ++ pending) = utf16leEncode now := by
      rw [body, cut, take_left]
    have remainder_eq : d.remainder (utf16leEncode now ++ pending) = pending := by
      rw [remainder, cut, drop_left]
    have none : ucs2Slice pending = [] := by
      rcases pending with _ | ⟨byte, _ | ⟨second, more⟩⟩
      · rfl
      · rfl
      · simp at short
    have decoded : ucs2Slice (utf16leEncode now) = utf16Encode now := by
      simpa using ucs2Slice_utf16leEncode now []
    have plain : endsInLead (utf16Encode (before ++ now)) = false := isLead_getLast_utf16Encode _
    rw [body_eq, remainder_eq, ucs2.decodes, decoded, ← utf16Encode_append, plain, next_eq,
      odd] at done
    rw [remainder_eq] at keeps
    refine ⟨middle, pending, _, keeps, done, .inl ⟨rfl, waiting, ?_⟩⟩
    intro lead last leads
    rw [ucs2Slice_utf16leEncode, none, append_nil] at last
    have text := isLead_getLast_utf16Encode now
    simp [last, leads] at text
  -- a lead surrogate ends the text, and the first two bytes of the buffer are kept
  have units_eq : ucs2Slice (utf16leEncode now ++ (unitBytes lead ++ odd)) =
      utf16Encode now ++ [lead] := by
    rw [ucs2Slice_utf16leEncode, ucs2Slice_unitBytes]
    rcases odd with _ | ⟨byte, _ | ⟨second, more⟩⟩
    · rfl
    · rfl
    · simp at short
  obtain ⟨first, tail, first_eq⟩ : ∃ first tail, utf16Encode now ++ [lead] = first :: tail := by
    cases utf16Encode now with
    | nil => exact ⟨lead, [], rfl⟩
    | cons unit units => exact ⟨unit, units ++ [lead], rfl⟩
  have bytes : utf16leEncode now ++ (unitBytes lead ++ odd) =
      unitBytes first ++ (tail.flatMap unitBytes ++ odd) := by
    have flat := congrArg (List.flatMap unitBytes) first_eq
    rw [flatMap_append, ← utf16leEncode_eq, flatMap_singleton, flatMap_cons] at flat
    rw [← append_assoc, flat, append_assoc]
  have two : (utf16leEncode now ++ (unitBytes lead ++ odd)).take 2 = unitBytes first := by
    rw [bytes]
    exact take_left' rfl
  have parity : (utf16leEncode now ++ (unitBytes lead ++ odd)).length % 2 = odd.length := by
    rw [length_append, length_append, length_unitBytes]
    omega
  have cut : (utf16leEncode now ++ (unitBytes lead ++ odd)).length -
      d.kept (utf16leEncode now ++ (unitBytes lead ++ odd)) =
      (utf16leEncode now ++ unitBytes lead).length := by
    rw [kept_eq, parity, length_append, length_append, length_append]
    omega
  have body_eq : d.body (utf16leEncode now ++ (unitBytes lead ++ odd)) =
      utf16leEncode now ++ unitBytes lead := by
    rw [body, cut, ← append_assoc, take_left]
  have remainder_eq : d.remainder (utf16leEncode now ++ (unitBytes lead ++ odd)) = odd := by
    rw [remainder, cut, ← append_assoc, drop_left]
  have decoded : ucs2Slice (utf16leEncode now ++ unitBytes lead) = utf16Encode now ++ [lead] := by
    have alone := ucs2Slice_unitBytes lead []
    rw [append_nil, ucs2Slice_nil] at alone
    rw [ucs2Slice_utf16leEncode, alone]
  have ends : endsInLead (utf16Encode before ++ (utf16Encode now ++ [lead])) = true := by
    rw [← append_assoc, endsInLead_append _ (by simp), endsInLead_singleton, leads]
  have text : (utf16Encode before ++ (utf16Encode now ++ [lead])).dropLast =
      utf16Encode (before ++ now) := by
    simp [utf16Encode_append]
  rw [remainder_eq] at keeps
  rw [body_eq, ucs2.decodes, decoded, if_pos ends, kept_eq, next_eq, parity,
    ucs2.surrogateSize, two, text] at done
  have length : (if odd.length = 0 then 0 else 2) + 2 = 2 + 2 * odd.length := by
    split <;> omega
  have received : odd.length + 2 = (unitBytes first ++ odd).length := by
    rw [length_append, length_unitBytes]
    omega
  refine ⟨_, unitBytes first ++ odd, 2 + 2 * odd.length, keeps_shift keeps short rfl, ?_, ?_⟩
  · rw [done, length, received]
    simp only [keeping, ucs2.surrogateSize]
  by_cases same : first = lead
  · left
    refine ⟨by rw [same], waiting, ?_⟩
    intro last is _
    rw [units_eq, List.getLast?_concat] at is
    simpa [units_eq, first_eq, same] using is
  right
  refine ⟨.intro units same short, ?_⟩
  intro leadFirst
  have head := leadFirst lead (by rw [units_eq, List.getLast?_concat]) leads
  rw [units_eq, first_eq, List.head?_cons, Option.some.injEq] at head
  exact same head

/-! ## One chunk more -/

/-- How many bytes are missing of the character in which a number of bytes of a text ends. -/
def missing : List Char → Nat → Nat
  | [], _ => 0
  | c :: rest, received =>
    if received = 0 then 0
    else if received < (utf16leEncodeChar c).length then
      (utf16leEncodeChar c).length - received
    else missing rest (received - (utf16leEncodeChar c).length)

theorem missing_zero (rest : List Char) : missing rest 0 = 0 := by
  cases rest <;> rfl

theorem utf16leEncodeChar_pos (c : Char) : 0 < (utf16leEncodeChar c).length := by
  obtain ⟨unit, word, -⟩ | ⟨lead, trail, word, -⟩ := utf16leEncodeChar_cases c
  · rw [word, length_unitBytes]
    decide
  · simp [word, length_unitBytes]

theorem missing_append (now rest : List Char) (received : Nat) :
    missing (now ++ rest) ((utf16leEncode now).length + received) = missing rest received := by
  induction now with
  | nil => rw [nil_append, utf16leEncode_nil, length_nil, Nat.zero_add]
  | cons c now ih =>
    have positive := utf16leEncodeChar_pos c
    rw [cons_append, utf16leEncode_cons, length_append, missing,
      if_neg (by omega), if_neg (by omega)]
    rw [← ih]
    congr 1
    omega

theorem missing_part (rest : List Char)
    (cut : utf16leEncodeChar c = pending ++ left) (started : pending ≠ []) (open_ : left ≠ []) :
    missing (c :: rest) pending.length = left.length := by
  have positive := length_pos_iff.mpr open_
  have some_ := length_pos_iff.mpr started
  have size := congrArg List.length cut
  rw [length_append] at size
  rw [missing, if_neg (by omega), if_pos (by omega)]
  omega

theorem exists_cut_utf16 {text : List Char} {received more : List UInt8}
    (sent : received ++ more = utf16leEncode text) :
    ∃ whole rest pending, text = whole ++ rest ∧ received = utf16leEncode whole ++ pending ∧
      pending ++ more = utf16leEncode rest ∧ Unfinished utf16leEncodeChar pending rest :=
  exists_cut _ _ _ _ sent

theorem leadFirst_nil : LeadFirst [] := by
  intro lead last
  cases last

/-- What a chunk gives: the characters that are complete with it. What is left is kept, or
another code unit than its lead surrogate. -/
theorem write_utf16 (ucs2 : Ucs2 toString d)
    (keeps : Keeps charBuffer pending) (waiting : Waiting pending rest charLength)
    (chunk more : List UInt8) (sent : pending ++ chunk ++ more = utf16leEncode rest) :
    ∃ now rest' pending' charBuffer' held charLength', rest = now ++ rest' ∧
      pending ++ chunk = utf16leEncode now ++ pending' ∧ pending' ++ more = utf16leEncode rest' ∧
      Keeps charBuffer' held ∧
      write toString (keeping d charBuffer pending charLength) chunk =
        (keeping d charBuffer' held charLength', utf16Encode now) ∧
      (held = pending' ∧ Waiting pending' rest' charLength' ∧
          LeadFirst (chunk.drop (missing rest pending.length)) ∨
        Stale pending' rest' held charLength' ∧
          ¬ LeadFirst (chunk.drop (missing rest pending.length))) := by
  have same : Ucs2 toString (keeping d charBuffer pending charLength) :=
    ⟨ucs2.detector, ucs2.surrogateSize, ucs2.decodes⟩
  cases waiting with
  | none =>
    rw [nil_append, length_nil, missing_zero, drop_zero]
    obtain ⟨now, rest', pending', rfl, rfl, left, unfinished⟩ := exists_cut_utf16 sent
    obtain ⟨charBuffer', held, charLength', keeps', done, kept⟩ :=
      writeRest_utf16 same [] now keeps.size unfinished
    refine ⟨now, rest', pending', charBuffer', held, charLength', rfl, rfl, left, keeps', ?_, kept⟩
    rw [write_idle toString ucs2.detects]
    exact done
  | @part _ left c rest _ cut started open_ waits =>
    have nonzero : charLength ≠ 0 := by
      rcases waits with ⟨rfl, -⟩ | ⟨rfl, -⟩ <;> decide
    rw [utf16leEncode_cons, cut, append_assoc, append_assoc, append_right_inj] at sent
    rw [missing_part rest cut started open_, write_waiting toString ucs2.detects _ _ _ nonzero]
    rcases append_eq_append_cases sent with ⟨left', open', rfl, after⟩ | ⟨tail, rfl, after⟩
    · -- the chunk ends inside of the character
      rw [← append_assoc] at cut
      obtain ⟨charBuffer', charLength', keeps', waits', done⟩ :=
        splitChar_open same chunk.length keeps waits cut open'
      refine ⟨[], c :: rest, pending ++ chunk, charBuffer', pending ++ chunk, charLength', rfl,
        rfl, ?_, keeps', ?_, .inl ⟨rfl, .part cut ?_ open' waits', ?_⟩⟩
      · simp [utf16leEncode_cons, cut, after]
      · simp [done]
      · intro none
        exact started (append_eq_nil_iff.mp none).1
      rw [length_append, drop_of_length_le (Nat.le_add_right _ _)]
      exact leadFirst_nil
    -- the chunk completes the character, and may go on
    rw [drop_left]
    obtain ⟨middle, size, done⟩ := splitChar_closed same (left ++ tail).length keeps waits
      (by rw [cut, length_append]; have := length_pos_iff.mpr open_; omega)
      (show pending ++ (left ++ tail) = utf16leEncodeChar c ++ tail by rw [cut, append_assoc])
    by_cases complete : tail = []
    · subst complete
      refine ⟨[c], rest, [], middle, [], 0, rfl, ?_, after, .nil size, ?_, .inl ⟨rfl,
        .none, leadFirst_nil⟩⟩
      · simp [utf16leEncode_cons, utf16leEncode_nil, cut]
      rw [done, if_pos rfl, utf16Encode_cons, utf16Encode_nil, append_nil]
      rfl
    obtain ⟨now, rest', pending', rfl, rfl, left', unfinished⟩ := exists_cut_utf16 after
    obtain ⟨charBuffer', held, charLength', keeps', done', kept⟩ :=
      writeRest_utf16 same [c] now size unfinished
    refine ⟨c :: now, rest', pending', charBuffer', held, charLength', rfl, ?_, left', keeps',
      ?_, kept⟩
    · simp [utf16leEncode_cons, cut]
    rw [done, if_neg complete]
    rw [utf16Encode_cons, utf16Encode_nil, append_nil] at done'
    exact done'

end StringDecoder

end IoJs
