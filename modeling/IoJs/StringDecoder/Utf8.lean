import IoJs.Library.Bytes
import IoJs.Library.Words
import IoJs.StringDecoder.Write
import IoJs.Unicode

/-!
# Decoding UTF-8

Of well-formed UTF-8 the decoder has received whole characters and a proper part of the next
one. The loop of `detectIncompleteChar` finds that part: it looks at the last three bytes for
a lead byte that announces more bytes than there are from it on.
-/

namespace IoJs.StringDecoder

open IoJs.Library IoJs.Stream List

/-! ## What the bytes of a character announce -/

variable {byte : UInt8}

theorem announced_eq {two three four : Bool} (i : Nat)
    (eq : (byte >>> 5 == 0x06) = two ∧ (byte >>> 4 == 0x0E) = three ∧ (byte >>> 3 == 0x1E) = four) :
    announced i byte = if i = 1 && two then some 2
      else if i ≤ 2 && three then some 3
      else if i ≤ 3 && four then some 4
      else none := by
  obtain ⟨rfl, rfl, rfl⟩ := eq
  rfl

theorem announced_continuation (x : UInt8) (i : Nat) :
    announced i (x &&& 0x3F ||| 0x80) = none := by
  have tests := forall_byte_lt 64
    (P := fun b => ((b ||| 0x80) >>> 5 == 0x06) = false ∧ ((b ||| 0x80) >>> 4 == 0x0E) = false ∧
      ((b ||| 0x80) >>> 3 == 0x1E) = false) (by decide) (x &&& 0x3F)
    (toNat_and_lt x 0x3F (show UInt8.toNat 0x3F < 2 ^ 6 by decide))
  rw [announced_eq i tests]
  simp

theorem announced_ascii (ascii : byte.toNat < 128) (i : Nat) : announced i byte = none := by
  have tests := forall_byte_lt 128
    (P := fun b => (b >>> 5 == 0x06) = false ∧ (b >>> 4 == 0x0E) = false ∧
      (b >>> 3 == 0x1E) = false) (by decide) byte ascii
  rw [announced_eq i tests]
  simp

variable {i : Nat}

theorem announced_lead_two (x : UInt8) (some_ : 0 < i) :
    announced i (x &&& 0x1F ||| 0xC0) = if i < 2 then some 2 else none := by
  have tests := forall_byte_lt 32
    (P := fun b => ((b ||| 0xC0) >>> 5 == 0x06) = true ∧ ((b ||| 0xC0) >>> 4 == 0x0E) = false ∧
      ((b ||| 0xC0) >>> 3 == 0x1E) = false) (by decide) (x &&& 0x1F)
    (toNat_and_lt x 0x1F (show UInt8.toNat 0x1F < 2 ^ 5 by decide))
  rw [announced_eq i tests]
  by_cases one : i = 1
  · simp [one]
  · simp [one, show ¬ i < 2 by omega]

theorem announced_lead_three (x : UInt8) (i : Nat) :
    announced i (x &&& 0x0F ||| 0xE0) = if i < 3 then some 3 else none := by
  have tests := forall_byte_lt 16
    (P := fun b => ((b ||| 0xE0) >>> 5 == 0x06) = false ∧ ((b ||| 0xE0) >>> 4 == 0x0E) = true ∧
      ((b ||| 0xE0) >>> 3 == 0x1E) = false) (by decide) (x &&& 0x0F)
    (toNat_and_lt x 0x0F (show UInt8.toNat 0x0F < 2 ^ 4 by decide))
  rw [announced_eq i tests]
  by_cases few : i ≤ 2
  · simp [few, show i < 3 by omega]
  · simp [few, show ¬ i < 3 by omega]

theorem announced_lead_four (x : UInt8) (i : Nat) :
    announced i (x &&& 0x07 ||| 0xF0) = if i < 4 then some 4 else none := by
  have tests := forall_byte_lt 8
    (P := fun b => ((b ||| 0xF0) >>> 5 == 0x06) = false ∧ ((b ||| 0xF0) >>> 4 == 0x0E) = false ∧
      ((b ||| 0xF0) >>> 3 == 0x1E) = true) (by decide) (x &&& 0x07)
    (toNat_and_lt x 0x07 (show UInt8.toNat 0x07 < 2 ^ 3 by decide))
  rw [announced_eq i tests]
  by_cases few : i ≤ 3
  · simp [few, show i < 4 by omega]
  · simp [few, show ¬ i < 4 by omega]

/-- The first byte of a character announces its length, where fewer bytes than that are left;
the others announce nothing. -/
theorem utf8EncodeChar_announces (c : Char) : ∃ byte tail, String.utf8EncodeChar c = byte :: tail ∧
    (∀ i, 0 < i → announced i byte = if i < c.utf8Size then some c.utf8Size else none) ∧
    ∀ b ∈ tail, ∀ i, announced i b = none := by
  have sizes : c.utf8Size = 1 ∨ c.utf8Size = 2 ∨ c.utf8Size = 3 ∨ c.utf8Size = 4 := by
    have small := c.utf8Size_le_four
    have positive := c.utf8Size_pos
    omega
  rcases sizes with one | two | three | four
  · refine ⟨_, [], String.utf8EncodeChar_eq_singleton one, ?_, by simp⟩
    intro i some_
    have ascii : c.val.toUInt8.toNat < 128 := by
      have small := Char.utf8Size_eq_one_iff.mp one
      rw [UInt32.toNat_toUInt8]
      have : c.val.toNat ≤ 127 := small
      omega
    rw [announced_ascii ascii, one, if_neg (by omega)]
  · refine ⟨_, _, String.utf8EncodeChar_eq_cons_cons two, ?_, ?_⟩
    · intro i some_
      rw [announced_lead_two _ some_, two]
    simp only [forall_mem_cons]
    exact ⟨announced_continuation _, by simp⟩
  · refine ⟨_, _, String.utf8EncodeChar_eq_cons_cons_cons three, ?_, ?_⟩
    · intro i _
      rw [announced_lead_three, three]
    simp only [forall_mem_cons]
    exact ⟨announced_continuation _, announced_continuation _, by simp⟩
  refine ⟨_, _, String.utf8EncodeChar_eq_cons_cons_cons_cons four, ?_, ?_⟩
  · intro i _
    rw [announced_lead_four, four]
  simp only [forall_mem_cons]
  exact ⟨announced_continuation _, announced_continuation _, announced_continuation _, by simp⟩

/-! ## `detectIncompleteChar` -/

theorem announced_whole (text : List Char) (pending : List UInt8)
    (before : pending.length < i) (inside : i ≤ (utf8Encode text ++ pending).length) :
    ((utf8Encode text ++ pending)[(utf8Encode text ++ pending).length - i]?).bind (announced i) =
      none := by
  induction text with
  | nil =>
    rw [utf8Encode_nil, nil_append] at inside
    omega
  | cons c text ih =>
    have split : utf8Encode (c :: text) ++ pending =
        String.utf8EncodeChar c ++ (utf8Encode text ++ pending) := by
      simp
    have size := String.length_utf8EncodeChar c
    rw [split, length_append, size] at inside ⊢
    by_cases later : i ≤ (utf8Encode text ++ pending).length
    · rw [List.getElem?_append_right (by omega), size]
      have same : c.utf8Size + (utf8Encode text ++ pending).length - i - c.utf8Size =
          (utf8Encode text ++ pending).length - i := by omega
      rw [same]
      exact ih later
    -- the byte is one of `c`, whose bytes are all there
    obtain ⟨byte, tail, bytes, first, rest⟩ := utf8EncodeChar_announces c
    rw [List.getElem?_append_left (by omega), bytes]
    cases at_ : c.utf8Size + (utf8Encode text ++ pending).length - i with
    | zero =>
      simp only [List.getElem?_cons_zero, Option.bind_some]
      rw [first i (by omega), if_neg (by omega)]
    | succ n =>
      rw [List.getElem?_cons_succ]
      cases found : tail[n]? with
      | none => rfl
      | some b => exact rest b (mem_of_getElem? found) i

theorem detectFrom_skip {buffer : List UInt8} {low high : Nat} (le : low ≤ high)
    (silent : ∀ i, low < i → i ≤ high → (buffer[buffer.length - i]?).bind (announced i) = none) :
    detectFrom buffer high = detectFrom buffer low := by
  induction high with
  | zero => rw [Nat.le_zero.mp le]
  | succ high ih =>
    by_cases here : low = high + 1
    · rw [here]
    rw [detectFrom, silent (high + 1) (by omega) (Nat.le_refl _)]
    exact ih (by omega) fun i above below => silent i above (by omega)

theorem new_utf8 : new "utf8" =
    { encoding := "utf8", detector := .utf8, surrogateSize := 3,
      charBuffer := List.replicate 6 0, charReceived := 0, charLength := 0 } := by
  decide

/-- How long the character will be that is not complete. -/
inductive Announced : List UInt8 → List Char → Nat → Prop where
  | none {rest : List Char} : Announced [] rest 0
  | part {pending left : List UInt8} {c : Char} {rest : List Char}
      (cut : String.utf8EncodeChar c = pending ++ left) (started : pending ≠ [])
      (open_ : left ≠ []) : Announced pending (c :: rest) c.utf8Size

theorem exists_cut_utf8 {text : List Char} {received more : List UInt8}
    (sent : received ++ more = utf8Encode text) :
    ∃ whole rest pending charLength, text = whole ++ rest ∧
      received = utf8Encode whole ++ pending ∧ pending ++ more = utf8Encode rest ∧
      Announced pending rest charLength := by
  obtain ⟨whole, rest, pending, rfl, rfl, left, unfinished⟩ := exists_cut _ _ _ _ sent
  cases unfinished with
  | none => exact ⟨whole, _, [], 0, rfl, rfl, left, .none⟩
  | part cut started open_ => exact ⟨whole, _, _, _, rfl, rfl, left, .part cut started open_⟩

variable {pending : List UInt8}

theorem Announced.length_lt {left : List UInt8} {c : Char}
    (cut : String.utf8EncodeChar c = pending ++ left) (open_ : left ≠ []) :
    pending.length < c.utf8Size := by
  have size := String.length_utf8EncodeChar c
  rw [cut, length_append] at size
  have := length_pos_iff.mpr open_
  omega

variable {rest : List Char} {charLength : Nat}

theorem detectIncompleteChar_utf8 (text : List Char)
    (announces : Announced pending rest charLength) :
    ((new "utf8").detectIncompleteChar (utf8Encode text ++ pending)).1.getD 0 = charLength ∧
      ((new "utf8").detectIncompleteChar (utf8Encode text ++ pending)).2 = pending.length := by
  have loop : (new "utf8").detectIncompleteChar (utf8Encode text ++ pending) =
      detectFrom (utf8Encode text ++ pending) (min 3 (utf8Encode text ++ pending).length) := by
    rfl
  have silent : ∀ i, pending.length < i → i ≤ min 3 (utf8Encode text ++ pending).length →
      ((utf8Encode text ++ pending)[(utf8Encode text ++ pending).length - i]?).bind (announced i) =
        none := by
    intro i above below
    exact announced_whole text pending above (by omega)
  rw [loop]
  cases announces with
  | none =>
    rw [detectFrom_skip (Nat.zero_le _) silent]
    exact ⟨rfl, rfl⟩
  | @part _ left c rest cut started open_ =>
    have less := Announced.length_lt cut open_
    have small := c.utf8Size_le_four
    have fits : pending.length ≤ min 3 (utf8Encode text ++ pending).length := by
      rw [length_append]
      omega
    rw [detectFrom_skip fits silent]
    obtain ⟨byte, tail, bytes, first, -⟩ := utf8EncodeChar_announces c
    obtain ⟨more, rfl⟩ : ∃ more, pending = byte :: more := by
      cases pending with
      | nil => exact absurd rfl started
      | cons => grind
    have found : ((utf8Encode text ++ byte :: more)[(utf8Encode text ++ byte :: more).length -
        (more.length + 1)]?).bind (announced (more.length + 1)) = some c.utf8Size := by
      rw [List.getElem?_append_right (by simp [length_append])]
      have start : (utf8Encode text ++ byte :: more).length - (more.length + 1) -
          (utf8Encode text).length = 0 := by simp
      rw [start, List.getElem?_cons_zero, Option.bind_some, first _ (Nat.succ_pos _)]
      exact if_pos less
    rw [length_cons, detectFrom, found]
    exact ⟨rfl, rfl⟩

theorem body_utf8 (text : List Char) (announces : Announced pending rest charLength) :
    (new "utf8").body (utf8Encode text ++ pending) = utf8Encode text ∧
      (new "utf8").remainder (utf8Encode text ++ pending) = pending ∧
      (new "utf8").nextLength (utf8Encode text ++ pending) = charLength := by
  obtain ⟨length, received⟩ := detectIncompleteChar_utf8 text announces
  have cut : (utf8Encode text ++ pending).length - (new "utf8").kept (utf8Encode text ++ pending) =
      (utf8Encode text).length := by
    rw [kept, received, length_append, Nat.add_sub_cancel]
  refine ⟨?_, ?_, length⟩
  · rw [body, cut, take_left]
  · rw [remainder, cut, drop_left]

/-! ## One chunk more -/

section Decoding

variable {toString : ToString}
  (decodes : ∀ text, toString "utf8" (utf8Encode text) = utf16Encode text)
variable {rest : List Char} {charBuffer pending : List UInt8} {charLength : Nat}

include decodes

/-- A chunk gives the characters that it completes, and the rest is kept. -/
theorem write_utf8
    (keeps : Keeps charBuffer pending) (announces : Announced pending rest charLength)
    (chunk more : List UInt8) (sent : pending ++ chunk ++ more = utf8Encode rest) :
    ∃ now rest' charBuffer' pending' charLength', rest = now ++ rest' ∧
      Keeps charBuffer' pending' ∧ Announced pending' rest' charLength' ∧
      pending ++ chunk = utf8Encode now ++ pending' ∧
      pending' ++ more = utf8Encode rest' ∧
      write toString (keeping (new "utf8") charBuffer pending charLength) chunk =
        (keeping (new "utf8") charBuffer' pending' charLength', utf16Encode now) := by
  have detects : (new "utf8").detector ≠ .passThrough := by rw [new_utf8]; decide
  have text : ∀ text, toString (new "utf8").encoding (utf8Encode text) = utf16Encode text := by
    intro text
    exact decodes text
  have plain : ∀ text, endsInLead (utf16Encode text) = false := isLead_getLast_utf16Encode
  cases announces with
  | none =>
    -- nothing waits: the chunk is whole characters and a part of the next
    obtain ⟨now, rest', pending', charLength', rfl, rfl, left, announces'⟩ := exists_cut_utf8 sent
    obtain ⟨body, remainder, length⟩ := body_utf8 now announces'
    obtain ⟨charBuffer', keeps', done⟩ := write_idle_plain toString detects
      (utf8Encode now ++ pending') keeps.size (by rw [body, text]; exact plain now)
    rw [body, remainder, length, text] at done
    rw [remainder] at keeps'
    exact ⟨now, rest', charBuffer', pending', charLength', rfl, keeps', announces', rfl, left, done⟩
  | @part _ left c rest cut started open_ =>
    have less := Announced.length_lt cut open_
    have small := c.utf8Size_le_four
    have single : utf8Encode [c] = String.utf8EncodeChar c := by simp
    have size := String.length_utf8EncodeChar c
    rw [utf8Encode_cons, cut, append_assoc, append_assoc, append_right_inj] at sent
    rw [cut, length_append] at size
    rcases append_eq_append_cases sent with ⟨left', open', rfl, after⟩ | ⟨tail, rfl, after⟩
    · -- the character is still not complete
      rw [← append_assoc] at cut
      have short := Announced.length_lt cut open'
      rw [length_append] at short
      obtain ⟨charBuffer', keeps', done⟩ := write_short toString detects c.utf8Size keeps
        (by omega) short
      refine ⟨[], c :: rest, charBuffer', pending ++ chunk, c.utf8Size, rfl, keeps', ?_, rfl, ?_,
        done⟩
      · refine .part cut ?_ open'
        intro none
        exact started (append_eq_nil_iff.mp none).1
      · simp [utf8Encode_cons, cut, after]
    -- the chunk completes the character, and goes on with others
    obtain ⟨now, rest', pending', charLength', rfl, rfl, left', announces'⟩ := exists_cut_utf8 after
    obtain ⟨body, remainder, length⟩ := body_utf8 now announces'
    have take : (left ++ (utf8Encode now ++ pending')).take (c.utf8Size - pending.length) =
        left := take_left' (by omega)
    have drop : (left ++ (utf8Encode now ++ pending')).drop (c.utf8Size - pending.length) =
        utf8Encode now ++ pending' := drop_left' (by omega)
    have units : utf16Encode [c] ++ utf16Encode now = utf16Encode (c :: now) := by simp
    obtain ⟨charBuffer', keeps', done⟩ := write_long_plain toString detects c.utf8Size keeps
      (by omega) (by omega) (by omega) (by rw [length_append]; omega) (text [])
      (show utf8Encode [c] = _ by rw [take, ← cut, single]) drop.symm
      (by rw [text]; exact plain _)
      (by rw [body, text, text, units]; exact plain _)
    rw [body, remainder, length, text, text, units] at done
    rw [remainder] at keeps'
    refine ⟨c :: now, rest', charBuffer', pending', charLength', rfl, keeps', announces', ?_,
      left', done⟩
    simp [utf8Encode_cons, cut]

/-! ## The whole text -/

/-- So do all chunks, one after the other. -/
theorem writes_utf8 (chunks : List (List UInt8)) (more : List UInt8)
    (keeps : Keeps charBuffer pending) (announces : Announced pending rest charLength)
    (sent : pending ++ chunks.flatten ++ more = utf8Encode rest) :
    ∃ now rest' charBuffer' pending' charLength', rest = now ++ rest' ∧
      Keeps charBuffer' pending' ∧ Announced pending' rest' charLength' ∧
      pending ++ chunks.flatten = utf8Encode now ++ pending' ∧
      pending' ++ more = utf8Encode rest' ∧
      (writes toString (keeping (new "utf8") charBuffer pending charLength) chunks).2 =
        keeping (new "utf8") charBuffer' pending' charLength' ∧
      (writes toString (keeping (new "utf8") charBuffer pending charLength) chunks).1.flatten =
        utf16Encode now := by
  induction chunks generalizing rest charBuffer pending charLength with
  | nil =>
    rw [flatten_nil, append_nil] at sent ⊢
    exact ⟨[], rest, charBuffer, pending, charLength, rfl, keeps, announces, rfl, sent, rfl, rfl⟩
  | cons chunk chunks ih =>
    rw [flatten_cons, ← append_assoc, append_assoc (pending ++ chunk)] at sent
    obtain ⟨now, rest, charBuffer', pending', charLength', rfl, keeps', announces', received,
      left, done⟩ := write_utf8 decodes keeps announces chunk _ sent
    rw [← append_assoc] at left
    obtain ⟨later, rest', charBuffer'', pending'', charLength'', rfl, keeps'', announces'',
      received', left', decoder, results⟩ := ih keeps' announces' left
    refine ⟨now ++ later, rest', charBuffer'', pending'', charLength'',
      (append_assoc _ _ _).symm, keeps'', announces'', ?_, left', ?_, ?_⟩
    · rw [flatten_cons, ← append_assoc, received, append_assoc, received',
        utf8Encode_append, append_assoc]
    · simpa [writes, done] using decoder
    · simp [writes, done, results, utf16Encode_append]

omit decodes in
theorem Announced.nil
    (announces : Announced pending rest charLength) (sent : pending = utf8Encode rest) :
    pending = [] ∧ rest = [] := by
  cases announces with
  | none =>
    refine ⟨rfl, ?_⟩
    cases rest with
    | nil => rfl
    | cons => simp [utf8Encode_cons] at sent
  | @part _ left c rest cut started open_ =>
    have less := Announced.length_lt cut open_
    have size := congrArg List.length sent
    rw [utf8Encode_cons, length_append, String.length_utf8EncodeChar] at size
    omega

/-- **`StringDecoder('utf8')` does not depend on the chunks**: for well-formed UTF-8 the results
are the text, and each is the decoding of the characters that its chunk completes. -/
theorem decode_utf8 (text : List Char) (chunks : List (List UInt8))
    (cut : chunks.flatten = utf8Encode text) :
    decode toString "utf8" chunks = utf16Encode text ∧
      ∀ before chunk after, chunks = before ++ chunk :: after →
        ∃ done now rest, text = done ++ now ++ rest ∧
          utf8Encode (done ++ now) <+: before.flatten ++ chunk ∧
          (writes toString (new "utf8") before).1.flatten = utf16Encode done ∧
          (write toString (writes toString (new "utf8") before).2 chunk).2 = utf16Encode now := by
  have start : new "utf8" = keeping (new "utf8") (List.replicate 6 0) [] 0 := by rfl
  have empty : Keeps (List.replicate 6 0) [] := .nil rfl
  constructor
  · obtain ⟨now, rest, charBuffer, pending, charLength, rfl, -, announces, -, left, decoder,
      results⟩ := writes_utf8 decodes chunks [] empty .none (by simpa using cut)
    rw [append_nil] at left
    obtain ⟨rfl, rfl⟩ := announces.nil left
    rw [← start] at decoder results
    simp only [decode, decoder, results, append_nil]
    rw [StringDecoder.end_, if_pos (by rfl), append_nil]
  rintro before chunk after rfl
  obtain ⟨done, rest, charBuffer, pending, charLength, rfl, keeps, announces, received, left,
    decoder, results⟩ := writes_utf8 decodes before (chunk ++ after.flatten) empty .none
      (by simpa using cut)
  rw [← append_assoc] at left
  obtain ⟨now, rest', charBuffer', pending', charLength', rfl, -, -, received', -, written⟩ :=
    write_utf8 decodes keeps announces chunk _ left
  rw [← start] at decoder results
  refine ⟨done, now, rest', (append_assoc _ _ _).symm, ⟨pending', ?_⟩, results, ?_⟩
  · rw [nil_append] at received
    simp [received, received', utf8Encode_append]
  · rw [decoder, written]

end Decoding

/-! ## A text that comes bit by bit -/

/-- The decoder has got `pending`, which is less than a character, of a text that goes on with
`rest`. -/
inductive Awaits : StringDecoder → List UInt8 → List Char → Prop where
  | keeping {charBuffer pending : List UInt8} {rest : List Char} {charLength : Nat}
      (keeps : Keeps charBuffer pending) (announces : Announced pending rest charLength) :
      Awaits (keeping (new "utf8") charBuffer pending charLength) pending rest

namespace Awaits

variable {d : StringDecoder} {pending : List UInt8} {rest : List Char}

theorem new (rest : List Char) : Awaits (new "utf8") [] rest := by
  have start : StringDecoder.new "utf8" =
      StringDecoder.keeping (StringDecoder.new "utf8") (List.replicate 6 0) [] 0 := by
    rfl
  exact .keeping (.nil rfl) .none

theorem append (awaits : Awaits d pending rest) (more : List Char) :
    Awaits d pending (rest ++ more) := by
  cases awaits with
  | keeping keeps announces =>
    cases announces with
    | none => exact .keeping keeps .none
    | part cut started open_ => exact .keeping keeps (.part cut started open_)

theorem length_lt {c : Char} (awaits : Awaits d pending (c :: rest)) :
    pending.length < c.utf8Size := by
  cases awaits with
  | keeping keeps announces =>
    cases announces with
    | none => exact c.utf8Size_pos
    | part cut started open_ => exact Announced.length_lt cut open_

theorem eq_nil (awaits : Awaits d pending rest) (all : pending = utf8Encode rest) : rest = [] := by
  cases awaits with
  | keeping keeps announces => exact (announces.nil all).2

theorem write {toString : ToString}
    (decodes : ∀ text, toString "utf8" (utf8Encode text) = utf16Encode text)
    (awaits : Awaits d pending rest) {chunk more : List UInt8}
    (sent : pending ++ (chunk ++ more) = utf8Encode rest) :
    ∃ now rest' pending', rest = now ++ rest' ∧ pending' ++ more = utf8Encode rest' ∧
      (d.write toString chunk).2 = utf16Encode now ∧
      Awaits (d.write toString chunk).1 pending' rest' := by
  cases awaits with
  | keeping keeps announces =>
    rw [← append_assoc] at sent
    obtain ⟨now, rest', charBuffer', pending', charLength', split, keeps', announces', -, left,
      written⟩ := write_utf8 decodes keeps announces chunk more sent
    refine ⟨now, rest', pending', split, left, ?_, ?_⟩
    · rw [written]
    rw [written]
    exact .keeping keeps' announces'

end Awaits

/-- UTF-8 decoding as the standard library has it. -/
def utf8ToString : ToString := fun _ bytes =>
  match bytes.toByteArray.utf8Decode? with
  | some text => utf16Encode text.toList
  | none => []

theorem utf8ToString_utf8Encode (text : List Char) :
    utf8ToString "utf8" (utf8Encode text) = utf16Encode text := by
  have decoded := List.utf8Decode?_utf8Encode (l := text)
  rw [List.utf8Encode] at decoded
  rw [utf8ToString, utf8Encode, decoded]

/-- Three characters of one, two and four bytes, cut inside of each. -/
theorem decode_utf8_of_three :
    decode utf8ToString "utf8" [[0x61, 0xC3], [], [0xA9, 0xF0, 0x9F], [0x98], [0x80]] =
      [0x61, 0xE9, 0xD83D, 0xDE00] :=
  (decode_utf8 utf8ToString_utf8Encode ['a', 'é', '😀'] _ (by decide)).1

end IoJs.StringDecoder
