import IoJs.StringDecoder

/-!
# What `write` does

A decoder keeps the bytes of a character that is not complete, and the length that the
character will have. `write` first completes it, then looks for the next incomplete character
at the end of the buffer. The lemmas here say what each part returns and keeps; only the case
of a lead surrogate depends on the encoding.
-/

namespace IoJs

open IoJs.Stream List

/-! ## `copy` -/

variable {target source : List UInt8} {start : Nat}

theorem length_copyInto (fits : start + source.length ≤ target.length) :
    (copyInto target start source).length = target.length := by
  simp only [copyInto, length_append, length_take, length_drop]
  omega

theorem take_copyInto (fits : start + source.length ≤ target.length) :
    (copyInto target start source).take (start + source.length) = target.take start ++ source := by
  have whole : source.take (target.length - start) = source := take_of_length_le (by omega)
  simp only [copyInto, whole]
  apply take_left'
  simp only [length_append, length_take]
  omega

theorem endsInLead_append {units : JSString} (more : JSString) (some : more ≠ []) :
    endsInLead (units ++ more) = endsInLead more := by
  rw [endsInLead, endsInLead, List.getLast?_append_of_ne_nil _ some]

namespace StringDecoder

/-- The bytes of `charBuffer` that count. -/
structure Keeps (charBuffer pending : List UInt8) : Prop where
  size : charBuffer.length = 6
  pending : charBuffer.take pending.length = pending

variable {charBuffer : List UInt8}

theorem Keeps.nil (size : charBuffer.length = 6) : Keeps charBuffer [] := ⟨size, rfl⟩

variable {pending : List UInt8}

theorem Keeps.copyInto (keeps : Keeps charBuffer pending)
    (more : List UInt8) (fits : pending.length + more.length ≤ 6) :
    Keeps (copyInto charBuffer pending.length more) (pending ++ more) where
  size := by rw [length_copyInto (by rw [keeps.size]; exact fits), keeps.size]
  pending := by rw [length_append, take_copyInto (by rw [keeps.size]; exact fits), keeps.pending]

/-- A decoder with the bytes of an incomplete character. -/
def keeping (d : StringDecoder) (charBuffer pending : List UInt8) (charLength : Nat) :
    StringDecoder :=
  { d with charBuffer, charReceived := pending.length, charLength }

/-! ## The character that was split -/

section

variable (d : StringDecoder) (charBuffer pending : List UInt8) (charLength : Nat)

@[simp] theorem keeping_encoding : (keeping d charBuffer pending charLength).encoding =
    d.encoding := rfl

@[simp] theorem keeping_surrogateSize :
    (keeping d charBuffer pending charLength).surrogateSize = d.surrogateSize := rfl

@[simp] theorem keeping_keeping (charBuffer' pending' : List UInt8) (charLength' : Nat) :
    (keeping d charBuffer pending charLength).keeping charBuffer' pending' charLength' =
      keeping d charBuffer' pending' charLength' := rfl

end

variable (toString : ToString) (d : StringDecoder) {charLength : Nat} {buffer chunk : List UInt8}

theorem splitChar_short (fuel : Nat) (keeps : Keeps charBuffer pending) (bound : charLength ≤ 6)
    (short : pending.length + buffer.length < charLength) :
    ∃ charBuffer', Keeps charBuffer' (pending ++ buffer) ∧
      splitChar toString d (fuel + 1) buffer charBuffer charLength pending.length =
        .returns (keeping d charBuffer' (pending ++ buffer) charLength) [] := by
  have available : min (charLength - pending.length) buffer.length = buffer.length := by omega
  refine ⟨copyInto charBuffer pending.length buffer, keeps.copyInto buffer (by omega), ?_⟩
  simp only [splitChar, available, take_length, if_pos short, keeping, length_append]

theorem splitChar_long (fuel : Nat) (keeps : Keeps charBuffer pending) (bound : charLength ≤ 6)
    (room : pending.length ≤ charLength) (long : charLength ≤ pending.length + buffer.length) :
    ∃ charBuffer', Keeps charBuffer' (pending ++ buffer.take (charLength - pending.length)) ∧
      splitChar toString d (fuel + 1) buffer charBuffer charLength pending.length =
        if endsInLead (toString d.encoding
            (pending ++ buffer.take (charLength - pending.length))) then
          splitChar toString d fuel (buffer.drop (charLength - pending.length)) charBuffer'
            (charLength + d.surrogateSize) charLength
        else if buffer.drop (charLength - pending.length) = [] then
          .returns (keeping d charBuffer' [] 0)
            (toString d.encoding (pending ++ buffer.take (charLength - pending.length)))
        else
          .goesOn (buffer.drop (charLength - pending.length))
            (toString d.encoding (pending ++ buffer.take (charLength - pending.length)))
            charBuffer' := by
  have available : min (charLength - pending.length) buffer.length =
      charLength - pending.length := by omega
  have taken : (buffer.take (charLength - pending.length)).length =
      charLength - pending.length := by
    rw [length_take, available]
  have keeps' := keeps.copyInto (buffer.take (charLength - pending.length)) (by omega)
  refine ⟨_, keeps', ?_⟩
  have complete : pending.length + (charLength - pending.length) = charLength := by omega
  have bytes := keeps'.pending
  rw [length_append, taken, complete] at bytes
  simp only [splitChar, available, complete, Nat.lt_irrefl, if_false, bytes]
  rfl

/-! ## The rest of the buffer -/

theorem detectIncompleteChar_zero (buffer : List UInt8)
    (none : (d.detectIncompleteChar buffer).1.getD 0 = 0) :
    (d.detectIncompleteChar buffer).2 = 0 := by
  have loop : ∀ i, (detectFrom buffer i).1.getD 0 = 0 → (detectFrom buffer i).2 = 0 := by
    intro i
    induction i with
    | zero => exact fun _ => rfl
    | succ i ih =>
      intro none
      rw [detectFrom] at none ⊢
      split at none
      · rename_i length found
        obtain ⟨byte, -, found⟩ := Option.bind_eq_some_iff.mp found
        have positive : length ≠ 0 := by
          unfold announced at found
          split at found
          · cases found; decide
          split at found
          · cases found; decide
          split at found
          · cases found; decide
          · cases found
        exact absurd none positive
      · exact ih none
  unfold detectIncompleteChar at none ⊢
  split at none
  · by_contra odd
    simp [odd] at none
  · by_contra odd
    simp [odd] at none
  · exact loop _ none

theorem detectIncompleteChar_le (buffer : List UInt8) :
    (d.detectIncompleteChar buffer).2 ≤ min 3 buffer.length := by
  have loop : ∀ i, (detectFrom buffer i).2 ≤ i := by
    intro i
    induction i with
    | zero => exact Nat.le_refl 0
    | succ i ih =>
      rw [detectFrom]
      split
      · exact Nat.le_refl _
      · exact Nat.le_succ_of_le ih
  unfold detectIncompleteChar
  split
  · have small := Nat.mod_lt buffer.length (show 0 < 2 by decide)
    have less := Nat.mod_le buffer.length 2
    omega
  · have small := Nat.mod_lt buffer.length (show 0 < 3 by decide)
    omega
  · exact loop _

/-- How many bytes at the end of a buffer wait for the rest of their character. -/
def kept (d : StringDecoder) (buffer : List UInt8) : Nat := (d.detectIncompleteChar buffer).2

/-- The bytes of a buffer that are complete characters. -/
def body (d : StringDecoder) (buffer : List UInt8) : List UInt8 :=
  buffer.take (buffer.length - d.kept buffer)

/-- The bytes of a buffer that wait for the rest of their character. -/
def remainder (d : StringDecoder) (buffer : List UInt8) : List UInt8 :=
  buffer.drop (buffer.length - d.kept buffer)

/-- The length of the incomplete character at the end of a buffer. -/
def nextLength (d : StringDecoder) (buffer : List UInt8) : Nat :=
  (d.detectIncompleteChar buffer).1.getD 0

section

variable (buffer : List UInt8)

theorem body_append_remainder : d.body buffer ++ d.remainder buffer = buffer := take_append_drop _ _

theorem length_remainder : (d.remainder buffer).length = d.kept buffer := by
  have bound := detectIncompleteChar_le d buffer
  rw [remainder, length_drop, kept]
  omega

theorem writeRest_eq (charStr : JSString) (size : charBuffer.length = 6) :
    ∃ charBuffer', Keeps charBuffer' (d.remainder buffer) ∧
      writeRest toString d buffer charStr charBuffer =
        if endsInLead (charStr ++ toString d.encoding (d.body buffer)) then
          ({ d with
              charBuffer := copyInto
                (copyInto charBuffer' d.surrogateSize (charBuffer'.take d.surrogateSize)) 0
                (buffer.take d.surrogateSize)
              charLength := d.nextLength buffer + d.surrogateSize
              charReceived := d.kept buffer + d.surrogateSize },
            (charStr ++ toString d.encoding (d.body buffer)).dropLast)
        else
          (keeping d charBuffer' (d.remainder buffer) (d.nextLength buffer),
            charStr ++ toString d.encoding (d.body buffer)) := by
  have same : (if (d.detectIncompleteChar buffer).1.getD 0 = 0 then 0 else d.kept buffer) =
      d.kept buffer := by
    split
    · rename_i none
      exact (detectIncompleteChar_zero d buffer none).symm
    · rfl
  have bound := detectIncompleteChar_le d buffer
  have short : (d.remainder buffer).length ≤ 6 := by
    rw [length_remainder, kept]
    omega
  have keeps := (Keeps.nil size).copyInto (d.remainder buffer) (by simpa using short)
  refine ⟨_, keeps, ?_⟩
  have found : d.detectIncompleteChar buffer =
      ((d.detectIncompleteChar buffer).1, d.kept buffer) := rfl
  unfold writeRest
  rw [found]
  simp only [same, keeping, length_remainder]
  rfl

end

section

variable (charBuffer pending : List UInt8) (charLength : Nat) (buffer : List UInt8)

@[simp] theorem keeping_body :
    (keeping d charBuffer pending charLength).body buffer = d.body buffer := rfl

@[simp] theorem keeping_remainder :
    (keeping d charBuffer pending charLength).remainder buffer = d.remainder buffer := rfl

@[simp] theorem keeping_nextLength :
    (keeping d charBuffer pending charLength).nextLength buffer = d.nextLength buffer := rfl

end

theorem remainder_nil : d.remainder [] = [] := by simp [remainder]

theorem body_nil : d.body [] = [] := by simp [body]

theorem nextLength_nil : d.nextLength [] = 0 := by
  unfold nextLength detectIncompleteChar
  split <;> rfl

/-! ## `write` -/

variable {d} (detects : d.detector ≠ .passThrough)

include detects

theorem write_idle (charBuffer chunk : List UInt8) :
    write toString (keeping d charBuffer [] 0) chunk =
      writeRest toString (keeping d charBuffer [] 0) chunk [] charBuffer := by
  unfold write
  rw [if_neg (show (keeping d charBuffer [] 0).detector ≠ .passThrough from detects)]
  rfl

theorem write_waiting (charBuffer pending chunk : List UInt8) (waits : charLength ≠ 0) :
    write toString (keeping d charBuffer pending charLength) chunk =
      match splitChar toString (keeping d charBuffer pending charLength) (chunk.length + 1 + 1)
        chunk charBuffer charLength pending.length with
      | .returns d result => (d, result)
      | .goesOn buffer charStr charBuffer' =>
        writeRest toString (keeping d charBuffer pending charLength) buffer charStr
          charBuffer' := by
  conv_lhs => unfold write
  rw [if_neg (show (keeping d charBuffer pending charLength).detector ≠ .passThrough from detects),
    if_neg (show (keeping d charBuffer pending charLength).charLength ≠ 0 from waits)]
  rfl

theorem write_short (charLength : Nat) (keeps : Keeps charBuffer pending) (bound : charLength ≤ 6)
    (short : pending.length + chunk.length < charLength) :
    ∃ charBuffer', Keeps charBuffer' (pending ++ chunk) ∧
      write toString (keeping d charBuffer pending charLength) chunk =
        (keeping d charBuffer' (pending ++ chunk) charLength, []) := by
  obtain ⟨charBuffer', keeps', done⟩ := splitChar_short toString
    (keeping d charBuffer pending charLength) (chunk.length + 1) keeps bound short
  refine ⟨charBuffer', keeps', ?_⟩
  rw [write_waiting toString detects _ _ _ (by omega), done]
  rfl

theorem write_idle_plain (chunk : List UInt8) (size : charBuffer.length = 6)
    (plain : endsInLead (toString d.encoding (d.body chunk)) = false) :
    ∃ charBuffer', Keeps charBuffer' (d.remainder chunk) ∧
      write toString (keeping d charBuffer [] 0) chunk =
        (keeping d charBuffer' (d.remainder chunk) (d.nextLength chunk),
          toString d.encoding (d.body chunk)) := by
  obtain ⟨charBuffer', keeps, done⟩ := writeRest_eq toString (keeping d charBuffer [] 0) chunk []
    size
  refine ⟨charBuffer', keeps, ?_⟩
  rw [write_idle toString detects, done]
  simp [plain]

/-- The buffer completes the character, and neither it nor the text after it ends in a lead
surrogate. -/
theorem write_long_plain (charLength : Nat) (keeps : Keeps charBuffer pending)
    (bound : charLength ≤ 6) (waits : charLength ≠ 0) (room : pending.length ≤ charLength)
    (long : charLength ≤ pending.length + chunk.length)
    (empty : toString d.encoding [] = []) {first rest : List UInt8}
    (first_eq : first = pending ++ chunk.take (charLength - pending.length))
    (rest_eq : rest = chunk.drop (charLength - pending.length))
    (plain : endsInLead (toString d.encoding first) = false)
    (plain' : endsInLead (toString d.encoding first ++ toString d.encoding (d.body rest)) = false) :
    ∃ charBuffer', Keeps charBuffer' (d.remainder rest) ∧
      write toString (keeping d charBuffer pending charLength) chunk =
        (keeping d charBuffer' (d.remainder rest) (d.nextLength rest),
          toString d.encoding first ++ toString d.encoding (d.body rest)) := by
  obtain ⟨middle, keeps', split⟩ := splitChar_long toString
    (keeping d charBuffer pending charLength) (chunk.length + 1) keeps bound room long
  rw [← first_eq, ← rest_eq] at split
  simp only [keeping_encoding, plain, Bool.false_eq_true, if_false, keeping_keeping] at split
  rw [write_waiting toString detects _ _ _ waits, split]
  by_cases none : rest = []
  · refine ⟨middle, ?_, ?_⟩
    · rw [none, remainder_nil]
      exact .nil keeps'.size
    · rw [if_pos none, none, remainder_nil, nextLength_nil, body_nil, empty, append_nil]
  rw [if_neg none]
  obtain ⟨charBuffer', keeps'', done⟩ := writeRest_eq toString
    (keeping d charBuffer pending charLength) rest (toString d.encoding first) keeps'.size
  refine ⟨charBuffer', keeps'', done.trans ?_⟩
  simp [plain']

omit detects

/-! ## Chunk after chunk -/

/-- The results of `write` for one chunk after the other, and the decoder after them. -/
def writes (d : StringDecoder) : List (List UInt8) → List JSString × StringDecoder
  | [] => ([], d)
  | chunk :: chunks =>
    let (d, result) := write toString d chunk
    let (results, d) := writes d chunks
    (result :: results, d)

/-- What `write` gives for the chunks, followed by what `end` gives. -/
def decode (encoding : String) (chunks : List (List UInt8)) : JSString :=
  let (results, d) := writes toString (new encoding) chunks
  results.flatten ++ d.end_ toString

theorem writes_invariant (R : StringDecoder → List UInt8 → JSString → Prop)
    (kept : ∀ d bytes text chunk, R d bytes text →
      R (write toString d chunk).1 (bytes ++ chunk) (text ++ (write toString d chunk).2))
    (chunks : List (List UInt8)) (d : StringDecoder) (bytes : List UInt8) (text : JSString)
    (start : R d bytes text) :
    R (writes toString d chunks).2 (bytes ++ chunks.flatten)
      (text ++ (writes toString d chunks).1.flatten) := by
  induction chunks generalizing d bytes text with
  | nil => simpa [writes] using start
  | cons chunk chunks ih =>
    have step := ih _ _ _ (kept d bytes text chunk start)
    simpa [writes] using step

end StringDecoder

end IoJs
