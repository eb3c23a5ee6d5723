import IoJs.Http.HeaderBlock

/-!
# A receiver

What the other side makes of the bytes of one message: it reads the header block, finds the one
field that announces the length of the body, and reads the body by it.
-/

namespace IoJs.Http

open IoJs.Stream IoJs.RegExp IoJs.Buffer IoJs.Library List Option

/-- The bytes of a literal of ASCII characters -/
def ascii (literal : String) : List UInt8 := oneByte (js literal)

/-! ## Numbers -/

/-- The value of a digit, also of the letters of hexadecimal -/
def digitValue (byte : UInt8) : Option Nat :=
  if 0x30 ≤ byte ∧ byte ≤ 0x39 then some (byte.toNat - 0x30)
  else if 0x41 ≤ byte ∧ byte ≤ 0x46 then some (10 + (byte.toNat - 0x41))
  else if 0x61 ≤ byte ∧ byte ≤ 0x66 then some (10 + (byte.toNat - 0x61))
  else none

/-- The value of some digits, behind a number that has been read -/
def digitsValue (base value : Nat) : List UInt8 → Option Nat
  | [] => some value
  | byte :: rest =>
    match digitValue byte with
    | some digit => if digit < base then digitsValue base (base * value + digit) rest else none
    | none => none

/-- A number, of at least one digit -/
def readNumber (base : Nat) (digits : List UInt8) : Option Nat :=
  if digits = [] then none else digitsValue base 0 digits

/-! ## The announcement -/

/-- How the end of the body is told -/
inductive Framing where
  | contentLength (n : Nat)
  | chunked

/-- A byte, in lower case -/
def lowerByte (byte : UInt8) : UInt8 := if 0x41 ≤ byte ∧ byte ≤ 0x5A then byte + 0x20 else byte

/-- The name of a field is what stands before the colon. -/
def fieldName (line : List UInt8) : List UInt8 := (line.takeWhile (· ≠ 0x3A)).map lowerByte

/-- The value of a field, without the blanks before it -/
def fieldValue (line : List UInt8) : List UInt8 :=
  ((line.dropWhile (· ≠ 0x3A)).drop 1).dropWhile fun byte => byte = 0x20 || byte = 0x09

/-- Does a line announce the length of the body? -/
def isFraming (line : List UInt8) : Bool :=
  fieldName line = ascii "content-length" || fieldName line = ascii "transfer-encoding"

/-- What a line announces -/
def framingOf (line : List UInt8) : Option Framing :=
  if fieldName line = ascii "content-length" then
    (readNumber 10 (fieldValue line)).map .contentLength
  else if (fieldValue line).map lowerByte = ascii "chunked" then some .chunked
  else none

/-- The one announcement of a header -/
def announced (lines : List (List UInt8)) : Option Framing :=
  match lines.tail.filter isFraming with
  | [line] => framingOf line
  | _ => none

/-! ## The body -/

/-- The data of a chunk, the line end behind it, and what follows -/
def readChunk (size : Nat) (input : List UInt8) : Option (List UInt8 × List UInt8) :=
  if (input.drop size).take 2 = lineEnd then some (input.take size, input.drop (size + 2)) else none

/-- The chunks up to the last one, and the trailers behind it -/
def readChunks : Nat → List UInt8 → Option (List UInt8 × List UInt8)
  | 0, _ => none
  | fuel + 1, input =>
    (readLine input).bind fun line =>
      (readNumber 16 line.1).bind fun size =>
        if size = 0 then (readBlock [] line.2).map fun trailers => ([], trailers.2)
        else (readChunk size line.2).bind fun chunk =>
          (readChunks fuel chunk.2).map fun more => (chunk.1 ++ more.1, more.2)

/-- The body, and what follows -/
def readBody (framing : Framing) (input : List UInt8) : Option (List UInt8 × List UInt8) :=
  match framing with
  | .contentLength n => if n ≤ input.length then some (input.take n, input.drop n) else none
  | .chunked => readChunks input.length input

/-- A message: the lines of its header, its body and what follows -/
structure Received where
  lines : List (List UInt8)
  body : List UInt8
  rest : List UInt8

/-- What a receiver reads -/
def receive (input : List UInt8) : Option Received :=
  (readBlock [] input).bind fun block =>
    (announced block.1).bind fun framing =>
      (readBody framing block.2).map fun body =>
        { lines := block.1, body := body.1, rest := body.2 }

/-! ## What it reads back -/

theorem digitsValue_append (base value : Nat) (left right : List UInt8) :
    digitsValue base value (left ++ right) =
      (digitsValue base value left).bind fun value => digitsValue base value right := by
  induction left generalizing value with
  | nil => rfl
  | cons byte left ih =>
    simp only [cons_append, digitsValue]
    cases digitValue byte with
    | none => rfl
    | some =>
      simp only
      split
      · exact ih _
      · rfl

theorem digitValue_digitChar (digit : Nat) (small : digit < 16) :
    digitValue (unit digit.digitChar).toUInt8 = some digit := by
  have all : ∀ digit < 16, digitValue (unit digit.digitChar).toUInt8 = some digit := by decide
  exact all digit small

/-- The digits of a number, as bytes -/
def digits (base n : Nat) : List UInt8 := oneByte ((Nat.toDigits base n).map unit)

variable {base : Nat}

theorem digitsValue_digits (some_ : 1 < base) (small : base ≤ 16) (n : Nat) :
    digitsValue base 0 (digits base n) = some n := by
  induction n using Nat.strong_induction_on with
  | _ n ih =>
    have single (digit value : Nat) (less : digit < base) :
        digitsValue base value [(unit digit.digitChar).toUInt8] = some (base * value + digit) := by
      simp only [digitsValue, digitValue_digitChar digit (by omega), if_pos less]
    rw [digits, Nat.toDigits_eq_if some_]
    split
    · rename_i less
      have one := single n 0 less
      rw [Nat.mul_zero, Nat.zero_add] at one
      exact one
    have smaller : n / base < n := Nat.div_lt_self (by omega) some_
    have whole := ih (n / base) smaller
    rw [digits, oneByte] at whole
    rw [oneByte, map_append, map_append, digitsValue_append, whole, bind_some]
    have last := single (n % base) (n / base) (Nat.mod_lt n (by omega))
    rw [Nat.div_add_mod] at last
    exact last

theorem readNumber_digits (some_ : 1 < base) (small : base ≤ 16) (n : Nat) :
    readNumber base (digits base n) = some n := by
  have filled : digits base n ≠ [] := by
    intro empty
    rw [digits, oneByte, map_eq_nil_iff, map_eq_nil_iff] at empty
    exact Nat.toDigits_ne_nil empty
  rw [readNumber, if_neg filled, digitsValue_digits some_ small]

theorem digitValue_isSome_of_digitsValue {value : Nat} {bytes : List UInt8} {n : Nat}
    (read : digitsValue base value bytes = some n) :
    ∀ byte ∈ bytes, (digitValue byte).isSome := by
  induction bytes generalizing value with
  | nil => exact nofun
  | cons byte bytes ih =>
    simp only [digitsValue] at read
    split at read
    · rename_i digit here
      split at read
      · rw [forall_mem_cons]
        exact ⟨by rw [here]; rfl, ih read⟩
      · cases read
    · cases read

theorem plain_digits (some_ : 1 < base) (small : base ≤ 16) (n : Nat) : Plain (digits base n) := by
  intro byte mem
  have digit := digitValue_isSome_of_digitsValue (digitsValue_digits some_ small n) byte mem
  constructor
  · rintro rfl
    cases digit
  rintro rfl
  cases digit

/-! ## Chunks -/

/-- A chunk on the wire -/
def chunkBytes (data : List UInt8) : List UInt8 :=
  digits 16 data.length ++ lineEnd ++ data ++ lineEnd

/-- The last chunk, without trailers -/
def lastChunk : List UInt8 := ascii "0" ++ lineEnd ++ lineEnd

theorem readChunk_append (data rest : List UInt8) :
    readChunk data.length (data ++ (lineEnd ++ rest)) = some (data, rest) := by
  have behind : (data ++ (lineEnd ++ rest)).drop data.length = lineEnd ++ rest := drop_left' rfl
  have further : (data ++ (lineEnd ++ rest)).drop (data.length + 2) = rest := by
    rw [← drop_drop, behind]
    rfl
  have two : (lineEnd ++ rest).take 2 = lineEnd := rfl
  rw [readChunk, behind, two, if_pos rfl, take_left' rfl, further]

variable {chunks : List (List UInt8)}

theorem readChunks_chunkBytes (filled : ∀ data ∈ chunks, data ≠ [])
    (rest : List UInt8) {fuel : Nat} (enough : chunks.length < fuel) :
    readChunks fuel (chunks.flatMap chunkBytes ++ (lastChunk ++ rest)) =
      some (chunks.flatten, rest) := by
  induction chunks generalizing fuel with
  | nil =>
    obtain ⟨fuel, rfl⟩ : ∃ n, fuel = n + 1 := ⟨fuel - 1, by simp at enough; omega⟩
    rfl
  | cons data chunks ih =>
    obtain ⟨fuel, rfl⟩ : ∃ n, fuel = n + 1 := ⟨fuel - 1, by simp at enough; omega⟩
    obtain ⟨here, filled⟩ := forall_mem_cons.mp filled
    have split : (data :: chunks).flatMap chunkBytes ++ (lastChunk ++ rest) =
        digits 16 data.length ++ (lineEnd ++
          (data ++ (lineEnd ++ (chunks.flatMap chunkBytes ++ (lastChunk ++ rest))))) := by
      simp only [flatMap_cons, chunkBytes, append_assoc]
    have size : data.length ≠ 0 := fun empty => here (length_eq_zero_iff.mp empty)
    rw [split, readChunks, readLine_append (plain_digits (by decide) (by decide) _),
      bind_some, readNumber_digits (by decide) (by decide), bind_some,
      if_neg size, readChunk_append, bind_some,
      ih filled (Nat.lt_of_succ_lt_succ enough), map_some, flatten_cons]

theorem length_chunkBytes (chunks : List (List UInt8)) :
    chunks.length ≤ (chunks.flatMap chunkBytes).length := by
  induction chunks with
  | nil => exact Nat.le_refl _
  | cons =>
    rw [flatMap_cons, length_append, length_cons]
    simp only [chunkBytes, length_append, lineEnd, length_cons]
    omega

theorem readBody_chunked (filled : ∀ data ∈ chunks, data ≠ []) :
    readBody .chunked (chunks.flatMap chunkBytes ++ lastChunk) = some (chunks.flatten, []) := by
  have enough := length_chunkBytes chunks
  have fuel : chunks.length < (chunks.flatMap chunkBytes ++ lastChunk).length := by
    simp only [lastChunk, ascii, oneByte, lineEnd, length_append, length_cons]
    omega
  have read := readChunks_chunkBytes filled [] fuel
  exact read

theorem readBody_contentLength (body : List UInt8) :
    readBody (.contentLength body.length) body = some (body, []) := by
  rw [readBody, if_pos (Nat.le_refl _), take_length, drop_length]

/-! ## Messages -/

variable {lines : List (List UInt8)}

theorem joinLines_split {left right : List UInt8}
    (proper : ∀ line ∈ lines, IsLine line) (eq : joinLines lines = left ++ lineEnd ++ right) :
    ∃ first second, lines = first ++ second ∧ joinLines first = left ++ lineEnd ∧
      joinLines second = right := by
  induction lines generalizing left with
  | nil =>
    have none := congrArg List.length eq
    simp only [joinLines_nil, length_nil, length_append, lineEnd, length_cons] at none
    omega
  | cons line lines ih =>
    obtain ⟨⟨plain, -⟩, proper⟩ := forall_mem_cons.mp proper
    rw [joinLines_cons, append_assoc, append_assoc] at eq
    obtain ⟨more, eqLeft, eqRest⟩ | ⟨more, eqLine, eqRest⟩ := append_eq_append_iff.mp eq
    · -- the line is at the start of `left`
      cases more with
      | nil =>
        refine ⟨[line], lines, rfl, ?_, ?_⟩
        · rw [eqLeft]
          simp
        exact (List.cons.inj (List.cons.inj eqRest).2).2
      | cons back more =>
        cases more with
        | nil =>
          have feed := (List.cons.inj (List.cons.inj eqRest).2).1
          exact absurd feed (by decide)
        | cons =>
          obtain ⟨rfl, after⟩ := List.cons.inj eqRest
          obtain ⟨rfl, behind⟩ := List.cons.inj after
          obtain ⟨first, second, rfl, eqFirst, eqSecond⟩ :=
            ih proper (by rw [append_assoc]; exact behind)
          refine ⟨line :: first, second, rfl, ?_, eqSecond⟩
          rw [joinLines_cons, eqFirst, eqLeft]
          simp [lineEnd]
    -- the line end is in the line, or is its end
    cases more with
    | nil =>
      refine ⟨[line], lines, rfl, ?_, ?_⟩
      · rw [eqLine]
        simp
      exact ((List.cons.inj (List.cons.inj eqRest).2).2).symm
    | cons back more =>
      have back_ := (List.cons.inj eqRest).1
      have mem : back ∈ line := by rw [eqLine]; simp
      exact absurd back_.symm (plain back mem).1

/-- **When a message is read as it was meant**: the lines that were passed in are lines, and none of
them is an announcement. -/
theorem receive_iff {start body data rest line : List UInt8}
    {framing : Framing} (proper : ∀ line ∈ lines, IsLine line)
    (only : lines.filter isFraming = [line]) (announces : framingOf line = some framing)
    (reads : readBody framing body = some (data, rest)) :
    (∃ received, receive (start ++ lineEnd ++ joinLines lines ++ lineEnd ++ body) =
        some { lines := received, body := data, rest } ∧
        joinLines received = start ++ lineEnd ++ joinLines lines) ↔
      ∃ given, readBlock [] (start ++ lineEnd ++ lineEnd) = some (given, []) ∧
        ∀ line ∈ given.tail, isFraming line = false := by
  have filled (first : List (List UInt8)) (eq : joinLines first = start ++ lineEnd) :
      first ≠ [] := by
    rintro rfl
    have none := congrArg List.length eq
    simp only [joinLines_nil, length_nil, length_append, lineEnd, length_cons] at none
    omega
  have announcements (first : List (List UInt8)) (some_ : first ≠ []) :
      (first ++ lines).tail.filter isFraming = first.tail.filter isFraming ++ [line] := by
    rw [tail_append_of_ne_nil some_, filter_append, only]
  constructor
  · rintro ⟨received, read, eq⟩
    rw [receive, bind_eq_some_iff] at read
    obtain ⟨⟨lines', rest'⟩, block, read⟩ := read
    rw [bind_eq_some_iff] at read
    obtain ⟨framing', announced_, read⟩ := read
    rw [map_eq_some_iff] at read
    obtain ⟨_, _, read⟩ := read
    obtain rfl : lines' = received := (Received.mk.inj read).1
    obtain ⟨properAll, -⟩ := readBlock_eq_some_iff.mp block
    obtain ⟨first, second, rfl, eqFirst, eqSecond⟩ := joinLines_split properAll eq
    rw [forall_mem_append] at properAll
    obtain ⟨rfl, -⟩ : second = lines ∧ ([] : List UInt8) = [] := by
      refine joinLines_inj properAll.2 proper ?_
      rw [eqSecond]
    refine ⟨first, ?_, ?_⟩
    · rw [readBlock_eq_some_iff, eqFirst, append_nil]
      exact ⟨properAll.1, rfl⟩
    rw [announced, announcements first (filled first eqFirst)] at announced_
    have none : first.tail.filter isFraming = [] := by
      cases found : first.tail.filter isFraming with
      | nil => rfl
      | cons other others =>
        rw [found] at announced_
        cases others with
        | nil => cases announced_
        | cons => cases announced_
    intro line mem
    have no := filter_eq_nil_iff.mp none line mem
    simpa using no
  rintro ⟨given, block, noFraming⟩
  obtain ⟨properGiven, eq⟩ := readBlock_eq_some_iff.mp block
  rw [append_nil] at eq
  have eq : joinLines given = start ++ lineEnd := (append_cancel_right eq).symm
  refine ⟨given ++ lines, ?_, by rw [joinLines_append, eq]⟩
  have blockAll : readBlock [] (start ++ lineEnd ++ joinLines lines ++ lineEnd ++ body) =
      some (given ++ lines, body) := by
    rw [readBlock_eq_some_iff, joinLines_append, eq]
    exact ⟨forall_mem_append.mpr ⟨properGiven, proper⟩, rfl⟩
  have none : given.tail.filter isFraming = [] := by
    rw [filter_eq_nil_iff]
    intro line mem
    rw [noFraming line mem]
    decide
  have announces : announced (given ++ lines) = some framing := by
    rw [announced, announcements given (filled given eq), none]
    exact announces
  rw [receive, blockAll, bind_some, announces, bind_some, reads, map_some]

end IoJs.Http
