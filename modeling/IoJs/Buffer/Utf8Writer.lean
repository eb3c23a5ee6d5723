import IoJs.Buffer.External

/-!
# `WriteUtf8` into a limited room

V8 writes a string that fits whole. Of one that does not, it writes as many code units in a row as
fit for certain, again and again; the last ones it writes one by one, and there it stops before a
lead surrogate, even if there is room for the pair.
-/

namespace IoJs.Buffer

open IoJs.Stream List

/-! ## `Utf8WriterVisitor` -/

/-- `Utf8WriterVisitor`: what has been written, and `last_character_` -/
structure Utf8Writer where
  written : List UInt8
  last : Option UInt16

/-- `Utf16::IsSurrogatePair` -/
def isSurrogatePair (last : Option UInt16) (c : UInt16) : Bool := last.any isLead && isTrail c

namespace Utf8Writer

/-- `Utf8::Encode`: a pair replaces what has been written for its lead surrogate. -/
def encode (w : Utf8Writer) (c : UInt16) : Utf8Writer :=
  { written :=
      if isSurrogatePair w.last c then
        w.written.take (w.written.length - 3) ++ String.utf8EncodeChar (pair (w.last.getD 0) c)
      else w.written ++ String.utf8EncodeChar (scalar c)
    last := some c }

/-- The slow loop of `Visit`; a written character that does not fit is taken back. -/
def slow (capacity : ℕ) : Utf8Writer → List UInt16 → Utf8Writer
  | w, [] => w
  | w, c :: chars =>
    let remaining := capacity - w.written.length
    if remaining = 0 then w
    else if isLead c then w
    else if !isSurrogatePair w.last c &&
      remaining < (String.utf8EncodeChar (scalar c)).length then w
    else slow capacity (w.encode c) chars

/-- `Visit`, for characters that take `maxSize` bytes at most -/
def visit (maxSize capacity : ℕ) (w : Utf8Writer) (chars : List UInt16) : Utf8Writer :=
  let writable := (capacity - w.written.length - maxSize) / maxSize
  if writable = 0 ∨ chars = [] then slow capacity w chars
  else visit maxSize capacity ((chars.take writable).foldl encode w) (chars.drop writable)
termination_by chars.length
decreasing_by
  rename_i more
  have some_ : 0 < chars.length := length_pos_iff.mpr fun empty => more (.inr empty)
  rw [length_drop]
  exact Nat.sub_lt some_ (Nat.pos_of_ne_zero fun zero => more (.inl zero))

end Utf8Writer

/-- `max_size_per_char` -/
def Storage.maxSize : Storage → ℕ
  | .oneByte => 2
  | _ => 3

def writeUtf8 (maxSize : ℕ) (text : JSString) (capacity : ℕ) : List UInt8 :=
  if text.length ≤ capacity / 3 then utf8Write text
  else if text.length ≤ capacity ∧ (utf8Write text).length ≤ capacity then utf8Write text
  else (Utf8Writer.visit maxSize capacity ⟨[], none⟩ text).written

/-! ## One more character -/

section Characters

variable {done : JSString} {c lead : UInt16}

theorem isLead_of_isTrail (trail : isTrail c = true) : isLead c = false := by
  rw [isTrail_eq, decide_eq_true_eq] at trail
  rw [isLead_eq, decide_eq_false_iff_not]
  omega

theorem utf8Write_concat (single : isSurrogatePair done.getLast? c = false) :
    utf8Write (done ++ [c]) = utf8Write done ++ String.utf8EncodeChar (scalar c) := by
  have split : scalars (done ++ [c]) = scalars done ++ scalars [c] := by
    apply scalars_append
    intro last isLast next isNext paired
    obtain rfl : c = next := by simpa using isNext
    rw [Option.mem_def.mp isLast, isSurrogatePair, Option.any_some, paired.1, paired.2] at single
    cases single
  rw [utf8Write, split, utf8Encode_append]
  exact congrArg (utf8Write done ++ ·) (append_nil _)

theorem utf8Write_lead (surrogate : isLead lead = true) (done : JSString) :
    ∃ three : List UInt8, three.length = 3 ∧
      utf8Write (done ++ [lead]) = utf8Write done ++ three := by
  have single : isSurrogatePair done.getLast? lead = false := by
    rw [isSurrogatePair]
    cases trail : isTrail lead with
    | false => exact Bool.and_false _
    | true =>
      rw [isLead_of_isTrail trail] at surrogate
      cases surrogate
  refine ⟨_, ?_, utf8Write_concat single⟩
  rw [scalar, if_pos (.inl surrogate)]
  rfl

theorem utf8Write_pair (paired : isLead lead = true ∧ isTrail c = true) (done : JSString) :
    utf8Write (done ++ [lead] ++ [c]) = utf8Write done ++ String.utf8EncodeChar (pair lead c) := by
  have split : scalars (done ++ [lead, c]) = scalars done ++ scalars [lead, c] := by
    apply scalars_append
    intro last isLast next isNext pair
    obtain rfl : lead = next := by simpa using isNext
    rw [isLead_of_isTrail pair.2] at paired
    exact absurd paired.1 (by decide)
  rw [append_assoc, singleton_append, utf8Write, split, utf8Encode_append, scalars, if_pos paired]
  exact congrArg (utf8Write done ++ ·) (append_nil _)

theorem exists_of_isSurrogatePair (paired : isSurrogatePair done.getLast? c = true) :
    ∃ init lead, done = init ++ [lead] ∧ isLead lead = true ∧ isTrail c = true := by
  rw [isSurrogatePair, Bool.and_eq_true] at paired
  cases last : done.getLast? with
  | none =>
    rw [last] at paired
    cases paired.1
  | some lead =>
    rw [last] at paired
    obtain ⟨init, rfl⟩ := List.getLast?_eq_some_iff.mp last
    exact ⟨init, lead, rfl, paired⟩

/-- The bytes that a character adds; the second one of a pair adds one. -/
def extra (done : JSString) (c : UInt16) : ℕ :=
  if isSurrogatePair done.getLast? c then 1 else (String.utf8EncodeChar (scalar c)).length

theorem length_utf8Write_concat (done : JSString) (c : UInt16) :
    (utf8Write (done ++ [c])).length = (utf8Write done).length + extra done c := by
  rw [extra]
  cases paired : isSurrogatePair done.getLast? c with
  | false =>
    rw [utf8Write_concat paired, length_append]
    rfl
  | true =>
    obtain ⟨init, lead, rfl, surrogates⟩ := exists_of_isSurrogatePair paired
    obtain ⟨three, length, eq⟩ := utf8Write_lead surrogates.1 init
    have four : (String.utf8EncodeChar (pair lead c)).length = 4 := by
      rw [String.length_utf8EncodeChar, Char.utf8Size_eq_four_iff, UInt32.lt_iff_toNat_lt]
      exact (toNat_pair surrogates).1
    rw [utf8Write_pair surrogates, eq, length_append, length_append, length, four, if_pos rfl]

theorem scalar_lt (c : UInt16) : (scalar c).toNat < 0x10000 := by
  have bound := c.toNat_lt
  rcases toNat_scalar c with same | ⟨-, replaced⟩ <;> omega

theorem extra_le_three (done : JSString) (c : UInt16) : extra done c ≤ 3 := by
  rw [extra, String.length_utf8EncodeChar]
  split
  · decide
  have small : ¬(scalar c).utf8Size = 4 := by
    rw [Char.utf8Size_eq_four_iff, UInt32.lt_iff_toNat_lt]
    exact Nat.not_lt_of_le (Nat.le_of_lt_succ (scalar_lt c))
  have most := Char.utf8Size_le_four (scalar c)
  omega

theorem extra_le_two (narrow : c.toNat < 256) (done : JSString) : extra done c ≤ 2 := by
  rw [extra, String.length_utf8EncodeChar]
  split
  · decide
  have same : (scalar c).toNat = c.toNat := by
    rw [scalar, if_neg]
    · exact toNat_charOfNat (by omega)
    rw [isLead_eq, isTrail_eq, decide_eq_true_eq, decide_eq_true_eq]
    omega
  have small : ¬0x7ff < (scalar c).val := by
    show ¬0x7ff < (scalar c).toNat
    omega
  have three : ¬(scalar c).utf8Size = 3 := fun size => small (Char.utf8Size_eq_three_iff.mp size).1
  have four : ¬(scalar c).utf8Size = 4 := by
    rw [Char.utf8Size_eq_four_iff, UInt32.lt_iff_toNat_lt]
    show ¬0xffff < (scalar c).toNat
    omega
  have most := Char.utf8Size_le_four (scalar c)
  omega

theorem length_utf8Write_le_append (done more : JSString) :
    (utf8Write done).length ≤ (utf8Write (done ++ more)).length := by
  induction more using List.reverseRecOn with
  | nil => rw [append_nil]
  | append_singleton more c ih =>
    rw [← append_assoc, length_utf8Write_concat]
    exact ih.trans (Nat.le_add_right _ _)

theorem length_utf8Write_append_le {maxSize : ℕ} (done : JSString) {chunk : JSString}
    (small : ∀ done, ∀ c ∈ chunk, extra done c ≤ maxSize) :
    (utf8Write (done ++ chunk)).length ≤ (utf8Write done).length + chunk.length * maxSize := by
  induction chunk generalizing done with
  | nil => rw [append_nil, length_nil, Nat.zero_mul, Nat.add_zero]
  | cons c chunk ih =>
    have rest := ih (done ++ [c]) fun done c mem => small done c (mem_cons_of_mem _ mem)
    have here := small done c mem_cons_self
    rw [append_assoc, singleton_append, length_utf8Write_concat] at rest
    rw [length_cons, Nat.succ_mul]
    omega

end Characters

namespace Utf8Writer

/-- These characters have been written. -/
structure Wrote (done : JSString) (w : Utf8Writer) : Prop where
  written : w.written = utf8Write done
  last : w.last = done.getLast?

variable {done : JSString} {w : Utf8Writer} {c : UInt16}

theorem Wrote.encode (wrote : Wrote done w) (c : UInt16) : Wrote (done ++ [c]) (w.encode c) := by
  refine ⟨?_, by rw [Utf8Writer.encode, List.getLast?_concat]⟩
  rw [Utf8Writer.encode, wrote.written, wrote.last]
  cases paired : isSurrogatePair done.getLast? c with
  | false => exact (utf8Write_concat paired).symm
  | true =>
    obtain ⟨init, lead, rfl, surrogates⟩ := exists_of_isSurrogatePair paired
    obtain ⟨three, length, eq⟩ := utf8Write_lead surrogates.1 init
    rw [List.getLast?_concat, utf8Write_pair surrogates, eq]
    simp [length]

theorem Wrote.foldl (wrote : Wrote done w) (chars : List UInt16) :
    Wrote (done ++ chars) (chars.foldl Utf8Writer.encode w) := by
  induction chars generalizing done w with
  | nil => rwa [append_nil]
  | cons c chars ih =>
    have whole := ih (wrote.encode c)
    rwa [append_assoc] at whole

end Utf8Writer

/-! ## The room that is filled -/

/-- Some characters at the beginning fill the room, and none of them is a lead surrogate where fewer
than `margin` bytes are left. -/
def Fills (margin capacity : ℕ) (done chars : JSString) : Prop :=
  ∃ k ≤ chars.length, (utf8Write (done ++ chars.take k)).length = capacity ∧
    ∀ j < k, capacity < (utf8Write (done ++ chars.take j)).length + margin →
      ∀ c ∈ chars[j]?, isLead c = false

section Fills

variable {margin capacity : ℕ} {done chars : JSString} {c : UInt16}

theorem fills_nil : Fills margin capacity done [] ↔ (utf8Write done).length = capacity := by
  constructor
  · rintro ⟨k, -, full, -⟩
    rwa [take_nil, append_nil] at full
  intro full
  exact ⟨0, le_rfl, by rwa [take_zero, append_nil], fun j less => by omega⟩

theorem fills_of_full (full : (utf8Write done).length = capacity) :
    Fills margin capacity done chars :=
  ⟨0, Nat.zero_le _, by rwa [take_zero, append_nil], fun j less => by omega⟩

theorem not_fills (exceeds : capacity < (utf8Write done).length) :
    ¬Fills margin capacity done chars := by
  rintro ⟨k, -, full, -⟩
  have longer := length_utf8Write_le_append done (chars.take k)
  omega

theorem fills_cons (room : (utf8Write done).length < capacity) :
    Fills margin capacity done (c :: chars) ↔
      (capacity < (utf8Write done).length + margin → isLead c = false) ∧
        Fills margin capacity (done ++ [c]) chars := by
  have shift (k : ℕ) : done ++ (c :: chars).take (k + 1) = done ++ [c] ++ chars.take k := by
    rw [take_succ_cons, append_assoc, singleton_append]
  constructor
  · rintro ⟨k, le, full, leads⟩
    cases k with
    | zero =>
      rw [take_zero, append_nil] at full
      omega
    | succ k =>
      refine ⟨fun near => ?_, k, Nat.le_of_succ_le_succ le, by rwa [shift] at full, ?_⟩
      · apply leads 0 (Nat.succ_pos k) _ c rfl
        rwa [take_zero, append_nil]
      intro j less near
      apply leads (j + 1) (Nat.succ_lt_succ less)
      rwa [shift]
  rintro ⟨first, k, le, full, leads⟩
  refine ⟨k + 1, Nat.succ_le_succ le, by rwa [shift], ?_⟩
  intro j less near
  cases j with
  | zero =>
    intro c' here
    obtain rfl : c = c' := by simpa using here
    rw [take_zero, append_nil] at near
    exact first near
  | succ j =>
    rw [shift] at near
    exact leads j (Nat.lt_of_succ_lt_succ less) near

theorem fills_append {maxSize : ℕ} (pos : 0 < maxSize) {chunk : JSString}
    (small : ∀ done, ∀ c ∈ chunk, extra done c ≤ maxSize)
    (room : (utf8Write done).length + (chunk.length + 1) * maxSize ≤ capacity) :
    Fills (2 * maxSize) capacity done (chunk ++ chars) ↔
      Fills (2 * maxSize) capacity (done ++ chunk) chars := by
  induction chunk generalizing done with
  | nil => rw [append_nil, nil_append]
  | cons c chunk ih =>
    rw [length_cons, Nat.add_mul, Nat.add_mul, Nat.one_mul] at room
    have here := small done c mem_cons_self
    have length := length_utf8Write_concat done c
    have rest := @ih (done ++ [c]) (fun done c mem => small done c (mem_cons_of_mem _ mem))
      (by rw [length, Nat.add_mul, Nat.one_mul]; omega)
    rw [append_assoc, singleton_append] at rest
    rw [cons_append, fills_cons (by omega), rest]
    exact and_iff_right fun near => by omega

end Fills

namespace Utf8Writer

variable {maxSize capacity : ℕ} {done chars : JSString} {w : Utf8Writer}

theorem slow_fills {margin : ℕ} (wrote : Wrote done w) (inside : w.written.length ≤ capacity)
    (near : capacity < w.written.length + margin) :
    (slow capacity w chars).written.length = capacity ↔ Fills margin capacity done chars := by
  induction chars generalizing done w with
  | nil => rw [slow, fills_nil, wrote.written]
  | cons c chars ih =>
    rw [slow]
    by_cases full : w.written.length = capacity
    · have none : capacity - w.written.length = 0 := by omega
      rw [none, if_pos rfl]
      exact iff_of_true full (fills_of_full (wrote.written ▸ full))
    have some_ : ¬capacity - w.written.length = 0 := by omega
    have room : (utf8Write done).length < capacity := by
      rw [← wrote.written]
      omega
    have length := length_utf8Write_concat done c
    have next := (wrote.encode c).written
    rw [if_neg some_, fills_cons room, ← wrote.written, imp_iff_right near]
    cases surrogate : isLead c with
    | true => exact iff_of_false full fun both => absurd both.1 (by decide)
    | false =>
      have fits : (!isSurrogatePair w.last c &&
          decide (capacity - w.written.length < (String.utf8EncodeChar (scalar c)).length)) =
            false ↔
            w.written.length + extra done c ≤ capacity := by
        rw [extra, ← wrote.last]
        cases isSurrogatePair w.last c with
        | true =>
          simp only [Bool.not_true, Bool.false_and, if_true, true_iff]
          omega
        | false =>
          simp only [Bool.not_false, Bool.true_and, decide_eq_false_iff_not, if_false,
            Bool.false_eq_true]
          omega
      rw [if_neg (by decide), and_iff_right rfl]
      by_cases enough : w.written.length + extra done c ≤ capacity
      · rw [fits.mpr enough, if_neg (by decide)]
        refine ih (wrote.encode c) ?_ ?_
        · rw [next, length, ← wrote.written]
          exact enough
        rw [next, length, ← wrote.written]
        omega
      rw [Bool.eq_true_of_not_eq_false (mt fits.mp enough), if_pos rfl]
      refine iff_of_false full (not_fills ?_)
      rw [length, ← wrote.written]
      omega

theorem visit_fills (pos : 0 < maxSize) (small : ∀ done, ∀ c ∈ chars, extra done c ≤ maxSize)
    (wrote : Wrote done w) (inside : w.written.length ≤ capacity) :
    (visit maxSize capacity w chars).written.length = capacity ↔
      Fills (2 * maxSize) capacity done chars := by
  induction w, chars using visit.induct maxSize capacity
    generalizing done with
  | case1 w chars writable =>
    rename_i last
    rw [visit, if_pos last]
    rcases last with none | rfl
    · refine slow_fills wrote inside ?_
      have near := (Nat.div_eq_zero_iff_lt pos).mp none
      omega
    · rw [slow, fills_nil, wrote.written]
  | case2 w chars writable =>
    rename_i more ih
    rw [visit, if_neg more]
    change ((visit maxSize capacity ((chars.take writable).foldl encode w)
      (chars.drop writable)).written.length = capacity ↔ _)
    have some_ : 0 < writable := Nat.pos_of_ne_zero fun none => more (.inl none)
    have bound : writable * maxSize ≤ capacity - w.written.length - maxSize :=
      Nat.div_mul_le_self _ _
    have length : (chars.take writable).length ≤ writable := length_take_le writable chars
    have room : (utf8Write done).length + ((chars.take writable).length + 1) * maxSize ≤
      capacity := by
      have least := Nat.le_mul_of_pos_left maxSize some_
      have most := Nat.mul_le_mul_right maxSize (Nat.succ_le_succ length)
      rw [Nat.succ_mul, Nat.succ_mul] at most
      rw [Nat.succ_mul, ← wrote.written]
      omega
    have chunk := wrote.foldl (chars.take writable)
    have split : Fills (2 * maxSize) capacity done (chars.take writable ++ chars.drop writable) ↔
        Fills (2 * maxSize) capacity (done ++ chars.take writable) (chars.drop writable) :=
      fills_append pos (fun done c mem => small done c (mem_of_mem_take mem)) room
    rw [take_append_drop] at split
    rw [split]
    refine ih (fun done c mem => small done c (mem_of_mem_drop mem)) chunk ?_
    have written := length_utf8Write_append_le done
      fun done c mem => small done c (mem_of_mem_take (i := writable) mem)
    rw [Nat.succ_mul] at room
    rw [chunk.written]
    omega

end Utf8Writer

/-- Does a text fill the room, whole or cut? -/
def FillsRoom (maxSize room : ℕ) (text : JSString) : Prop :=
  (utf8Write text).length = room ∨ Fills (2 * maxSize) room [] text

theorem length_writeUtf8_iff {maxSize room : ℕ} {text : JSString} (pos : 0 < maxSize)
    (small : ∀ done, ∀ c ∈ text, extra done c ≤ maxSize) :
    (writeUtf8 maxSize text room).length = room ↔ FillsRoom maxSize room text := by
  have least := (length_utf8Write text).1
  have most : (utf8Write text).length ≤ text.length * 3 := by
    have all : (utf8Write ([] ++ text)).length ≤ (utf8Write []).length + text.length * 3 :=
      length_utf8Write_append_le [] fun done c _ => extra_le_three done c
    rwa [nil_append, show (utf8Write []).length = 0 from rfl, Nat.zero_add] at all
  have whole (fits : (utf8Write text).length ≤ room) :
      (utf8Write text).length = room ↔ FillsRoom maxSize room text := by
    refine ⟨.inl, ?_⟩
    rintro (full | ⟨k, -, full, -⟩)
    · exact full
    have longer := length_utf8Write_le_append (text.take k) (text.drop k)
    rw [take_append_drop] at longer
    rw [nil_append] at full
    omega
  rw [writeUtf8]
  split
  · exact whole (by omega)
  split
  · rename_i fits
    exact whole fits.2
  rename_i short
  have exceeds : (utf8Write text).length ≠ room := by
    intro full
    exact short ⟨by omega, by omega⟩
  rw [FillsRoom, or_iff_right exceeds]
  exact Utf8Writer.visit_fills pos small ⟨rfl, rfl⟩ (Nat.zero_le _)

end IoJs.Buffer
