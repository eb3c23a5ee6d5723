import IoJs.Http.GivenHeaders

/-!
# Header splitting

A receiver that reads a block line by line finds the first line, a line for each value of each
field and the automatic fields, and no others, exactly when nothing that was passed in is sent with
a line break in it. The values of headers go through `sanitize`, which drops CR and LF; names,
the reason phrase, the request line and the trailers do not.
-/

open List

namespace IoJs.Buffer.Charset

open IoJs.Stream

/-- Is a code unit sent as a space or a tab? -/
def blank (charset : Charset) (unit : UInt16) : Bool :=
  match charset with
  | .oneByte => unit.toUInt8 = 0x20 || unit.toUInt8 = 0x09
  | .utf8 => unit = 0x20 || unit = 0x09

/-- No code unit of a text breaks the line. -/
def Unbroken (charset : Charset) (text : JSString) : Prop :=
  ∀ unit ∈ text, charset.breaks unit = false

/-- A text does not start with a blank. -/
def Unindented (charset : Charset) (text : JSString) : Prop :=
  ∀ unit ∈ text.head?, charset.blank unit = false

instance (charset : Charset) : DecidablePred charset.Unbroken := fun _ => List.decidableBAll _ _

instance (charset : Charset) : DecidablePred charset.Unindented := fun text =>
  decidable_of_iff (text.head?.all (fun unit => !charset.blank unit) = true) (by
    cases text <;> simp [Unindented])

variable {charset : Charset} {left right : JSString}

theorem unbroken_append :
    charset.Unbroken (left ++ right) ↔ charset.Unbroken left ∧ charset.Unbroken right :=
  forall_mem_append

theorem head_utf8Write {unit : UInt16} {rest : JSString} {byte : UInt8}
    (ascii : byte.toNat < 0x80) :
    (utf8Write (unit :: rest)).head? = some byte ↔ unit.toNat = byte.toNat := by
  -- the first scalar value is the unit, or both are beyond ASCII
  have first : ∃ c others, utf8Write (unit :: rest) = String.utf8EncodeChar c ++ others ∧
      (c.toNat = unit.toNat ∨ 0x80 ≤ c.toNat ∧ 0x80 ≤ unit.toNat) := by
    have alone := toNat_scalar unit
    cases rest with
    | nil => exact ⟨scalar unit, [], by simp [utf8Write, scalars], by omega⟩
    | cons next rest =>
      by_cases paired : isLead unit ∧ isTrail next
      · have large := toNat_pair paired
        refine ⟨pair unit next, utf8Write rest, ?_, by omega⟩
        simp [utf8Write, scalars, paired]
      refine ⟨scalar unit, utf8Write (next :: rest), ?_, by omega⟩
      simp [utf8Write, scalars, paired]
  obtain ⟨c, others, eq, same⟩ := first
  rw [eq]
  by_cases small : c.toNat < 0x80
  · rw [utf8EncodeChar_small small, singleton_append, List.head?_cons, Option.some.injEq,
      ← UInt8.toNat_inj, UInt8.toNat_ofNat', Nat.mod_eq_of_lt (by omega)]
    omega
  have large := (utf8EncodeChar_large (by omega : 0x80 ≤ c.toNat)).2
  cases encoded : String.utf8EncodeChar c with
  | nil => exact absurd encoded String.utf8EncodeChar_ne_nil
  | cons => grind

theorem unindented_iff (charset : Charset) (text : JSString) : charset.Unindented text ↔
    (charset.bytes text).head? ≠ some 0x20 ∧ (charset.bytes text).head? ≠ some 0x09 := by
  cases text with
  | nil => cases charset <;> simp [Unindented, bytes, Buffer.oneByte, utf8Write, scalars]
  | cons unit rest =>
    cases charset with
    | oneByte => simp [Unindented, bytes, Buffer.oneByte, blank]
    | utf8 =>
      have space : unit = 0x20 ↔ (utf8Write (unit :: rest)).head? = some 0x20 := by
        rw [head_utf8Write (by decide), ← UInt16.toNat_inj]
        rfl
      have tab : unit = 0x09 ↔ (utf8Write (unit :: rest)).head? = some 0x09 := by
        rw [head_utf8Write (by decide), ← UInt16.toNat_inj]
        rfl
      simp only [bytes, ne_eq, ← space, ← tab]
      simp [Unindented, blank]

theorem bytes_ne_nil {text : JSString} (filled : text ≠ []) : charset.bytes text ≠ [] := by
  have length : text.length ≤ (charset.bytes text).length := by
    cases charset with
    | oneByte => exact (length_map _).ge
    | utf8 => exact (length_utf8Write text).1
  intro empty
  rw [empty, length_nil, Nat.le_zero, length_eq_zero_iff] at length
  exact filled length

end IoJs.Buffer.Charset

namespace IoJs.Http

open IoJs.Stream IoJs.RegExp IoJs.Buffer IoJs.Library

/-! ## A receiver -/

/-- The lines of a block that is all of the input. A line that starts with a blank would continue
the line before it. -/
def parseBlock (input : List UInt8) : Option (List (List UInt8)) :=
  match readBlock [] input with
  | some (lines, []) =>
    if lines.all fun line => line.head? ≠ some 0x20 && line.head? ≠ some 0x09 then some lines
    else none
  | _ => none

variable {input : List UInt8}

theorem parseBlock_eq_some_iff {lines : List (List UInt8)} : parseBlock input = some lines ↔
    readBlock [] input = some (lines, []) ∧
      ∀ line ∈ lines, line.head? ≠ some 0x20 ∧ line.head? ≠ some 0x09 := by
  rw [parseBlock]
  split
  · rename_i lines' read
    rw [read]
    simp only [List.all_eq_true, Bool.and_eq_true, decide_eq_true_eq, Option.some.injEq,
      Prod.mk.injEq, and_true]
    constructor
    · intro parsed
      split at parsed
      · rename_i unindented
        cases parsed
        exact ⟨rfl, unindented⟩
      · cases parsed
    rintro ⟨rfl, unindented⟩
    rw [if_pos unindented]
  · grind

/-- A text that is a line of its own -/
structure IsTextLine (charset : Charset) (line : JSString) : Prop where
  unbroken : charset.Unbroken line
  unindented : charset.Unindented line
  filled : line ≠ []

theorem isTextLine_of_parseBlock {charset : Charset} {lines : List JSString}
    (parsed : parseBlock input = some (lines.map charset.bytes)) :
    ∀ line ∈ lines, IsTextLine charset line := by
  rw [parseBlock_eq_some_iff, readBlock_eq_some_iff] at parsed
  simp only [List.forall_mem_map] at parsed
  obtain ⟨⟨proper, -⟩, unindented⟩ := parsed
  intro line mem
  refine ⟨(charset.plain_bytes line).mp (proper line mem).1,
    (charset.unindented_iff line).mpr (unindented line mem), ?_⟩
  rintro rfl
  exact (proper [] mem).2 (by cases charset <;> rfl)

theorem parseBlock_textLines_iff (charset : Charset) (lines : List JSString) :
    parseBlock (charset.bytes (textLines lines ++ crlf)) = some (lines.map charset.bytes) ↔
      ∀ line ∈ lines, IsTextLine charset line := by
  constructor
  · exact isTextLine_of_parseBlock
  intro proper
  have bytes : charset.bytes (textLines lines ++ crlf) =
      joinLines (lines.map charset.bytes) ++ lineEnd ++ [] := by
    simp [bytes_textLines, bytes_crlf]
  rw [parseBlock_eq_some_iff, bytes, readBlock_eq_some_iff]
  simp only [List.forall_mem_map, and_true]
  exact ⟨fun line mem => ⟨(charset.plain_bytes line).mpr (proper line mem).unbroken,
      Charset.bytes_ne_nil (proper line mem).filled⟩,
    fun line mem => (charset.unindented_iff line).mp (proper line mem).unindented⟩

/-! ## The automatic fields -/

/-- Characters of ASCII that are no control characters -/
def Printable (text : JSString) : Prop := ∀ unit ∈ text, 0x20 ≤ unit.toNat ∧ unit.toNat < 0x7F

instance : DecidablePred Printable := fun _ => List.decidableBAll _ _

theorem printable_append {left right : JSString} :
    Printable (left ++ right) ↔ Printable left ∧ Printable right := forall_mem_append

theorem Printable.unbroken {text : JSString} (printable : Printable text) (charset : Charset) :
    charset.Unbroken text := by
  intro unit mem
  have range := printable unit mem
  cases charset with
  | oneByte =>
    simp only [Charset.breaks, Bool.or_eq_false_iff, decide_eq_false_iff_not,
      ← UInt8.toNat_inj, UInt16.toNat_toUInt8, UInt8.reduceToNat]
    omega
  | utf8 =>
    simp only [Charset.breaks, Bool.or_eq_false_iff, decide_eq_false_iff_not,
      ← UInt16.toNat_inj, UInt16.reduceToNat]
    omega

theorem printable_decimal (n : Nat) : Printable (decimal n) := by
  intro unit mem
  obtain ⟨c, digit, rfl⟩ := List.mem_map.mp mem
  have digit := Nat.isDigit_of_mem_toDigits (by decide) (by decide) digit
  simp only [Char.isDigit, Bool.and_eq_true, decide_eq_true_eq, UInt32.le_iff_toNat_le] at digit
  have low : 48 ≤ c.toNat := digit.1
  have high : c.toNat ≤ 57 := digit.2
  rw [RegExp.unit, UInt16.toNat_ofNat', Nat.mod_eq_of_lt (by omega)]
  omega

theorem Printable.isTextLine {first : UInt16} {rest : JSString}
    (printable : Printable (first :: rest))
    (letter : first.toNat ≠ 0x20) (charset : Charset) : IsTextLine charset (first :: rest) := by
  refine ⟨printable.unbroken charset, ?_, cons_ne_nil _ _⟩
  have range := printable first mem_cons_self
  intro unit head
  obtain rfl : first = unit := by simpa using head
  cases charset with
  | oneByte =>
    simp only [Charset.blank, Bool.or_eq_false_iff, decide_eq_false_iff_not,
      ← UInt8.toNat_inj, UInt16.toNat_toUInt8, UInt8.reduceToNat]
    omega
  | utf8 =>
    simp only [Charset.blank, Bool.or_eq_false_iff, decide_eq_false_iff_not,
      ← UInt16.toNat_inj, UInt16.reduceToNat]
    omega

namespace OutgoingMessage

/-- The fields that a message adds by itself: the date, the connection and the framing, where they
are not given -/
def Automatic (env : Environment) (lines : List JSString) : Prop :=
  ∃ date connection framing, lines = date ++ connection ++ framing ∧
    (date = [] ∨ date = [js "Date: " ++ env.utcDate]) ∧
    (connection = [] ∨ connection = [js "Connection: keep-alive"] ∨
      connection = [js "Connection: close"]) ∧
    (framing = [] ∨ framing = [js "Transfer-Encoding: chunked"] ∨
      ∃ n, framing = [js "Content-Length: " ++ decimal n])

theorem automatic_automatic (env : Environment) (firstLine : JSString)
    (headers : List (JSString × Value)) (m : OutgoingMessage) :
    Automatic env (m.automatic env firstLine headers) := by
  refine ⟨_, _, _, rfl, ?_, ?_, ?_⟩
  · rw [dateLines]
    split
    · exact .inr rfl
    · exact .inl rfl
  · rw [connectionLines]
    repeat' split
    · exact .inl rfl
    · exact .inr (.inl rfl)
    · exact .inr (.inr rfl)
    · exact .inl rfl
  · grind [framingLines.eq_def]

theorem Automatic.forall_line {env : Environment} {lines : List JSString}
    (automatic : Automatic env lines) {P : JSString → Prop} (date : P (js "Date: " ++ env.utcDate))
    (keepAlive : P (js "Connection: keep-alive")) (close : P (js "Connection: close"))
    (chunked : P (js "Transfer-Encoding: chunked"))
    (length : ∀ n, P (js "Content-Length: " ++ decimal n)) : ∀ line ∈ lines, P line := by
  obtain ⟨dates, connection, framing, rfl, isDate, isConnection, isFraming⟩ := automatic
  rw [forall_mem_append, forall_mem_append]
  refine ⟨⟨?_, ?_⟩, ?_⟩
  · obtain rfl | rfl := isDate
    · exact nofun
    · exact forall_mem_singleton.mpr date
  · obtain rfl | rfl | rfl := isConnection
    · exact nofun
    · exact forall_mem_singleton.mpr keepAlive
    · exact forall_mem_singleton.mpr close
  obtain rfl | rfl | ⟨n, rfl⟩ := isFraming
  · exact nofun
  · exact forall_mem_singleton.mpr chunked
  · exact forall_mem_singleton.mpr (length n)

theorem Automatic.isTextLine {env : Environment} {lines : List JSString}
    (automatic : Automatic env lines) (charset : Charset) :
    ∀ line ∈ lines, IsTextLine charset line := by
  refine automatic.forall_line ?_ ?_ ?_ ?_ fun n => ?_
  · have printable : Printable (js "Date: " ++ env.utcDate) :=
      printable_append.mpr ⟨by decide, env.utcDate_plain⟩
    exact printable.isTextLine (by decide) charset
  · exact Printable.isTextLine (by decide) (by decide) charset
  · exact Printable.isTextLine (by decide) (by decide) charset
  · exact Printable.isTextLine (by decide) (by decide) charset
  have printable : Printable (js "Content-Length: " ++ decimal n) :=
    printable_append.mpr ⟨by decide, printable_decimal n⟩
  exact printable.isTextLine (by decide) charset

/-! ## Values -/

variable {unit : UInt16} {started : Bool} {text : JSString}

theorem mem_of_mem_sanitize
    (mem : unit ∈ sanitize started text) : unit ∈ text ∧ unit ≠ 0x0D ∧ unit ≠ 0x0A := by
  induction started, text using sanitize.induct with
  | case1 => cases mem
  | case2 started ch rest break_ ih =>
    rw [sanitize, if_pos break_] at mem
    exact ⟨mem_cons_of_mem _ (ih mem).1, (ih mem).2⟩
  | case3 started ch rest _ blank ih =>
    rename_i noBreak
    rw [sanitize, if_neg noBreak, if_pos blank] at mem
    exact ⟨mem_cons_of_mem _ (ih mem).1, (ih mem).2⟩
  | case4 started ch rest noBreak other ih =>
    rw [sanitize, if_neg noBreak, if_neg other, mem_cons] at mem
    obtain rfl | mem := mem
    · exact ⟨mem_cons_self, fun eq => noBreak (.inl eq), fun eq => noBreak (.inr eq)⟩
    · exact ⟨mem_cons_of_mem _ (ih mem).1, (ih mem).2⟩

theorem mem_sanitize (mem : unit ∈ text)
    (other : unit ≠ 0x0D ∧ unit ≠ 0x0A ∧ unit ≠ 0x20 ∧ unit ≠ 0x09) :
    unit ∈ sanitize started text := by
  induction text generalizing started with
  | nil => cases mem
  | cons ch rest ih =>
    rw [mem_cons] at mem
    rw [sanitize]
    split
    · rename_i break_
      obtain rfl | mem := mem
      · exact absurd break_ (fun either => either.elim other.1 other.2.1)
      · exact ih mem
    split
    · rename_i blank
      obtain rfl | mem := mem
      · exact absurd blank.2 (fun either => either.elim other.2.2.1 other.2.2.2)
      · exact ih mem
    obtain rfl | mem := mem
    · exact mem_cons_self
    · exact mem_cons_of_mem _ (ih mem)

theorem unbroken_sanitize_iff (charset : Charset) (value : JSString) :
    charset.Unbroken (sanitize false value) ↔
      ∀ unit ∈ value, unit ≠ 0x0D → unit ≠ 0x0A → charset.breaks unit = false := by
  constructor
  · intro unbroken unit mem noReturn noFeed
    by_cases blank : unit = 0x20 ∨ unit = 0x09
    · obtain rfl | rfl := blank
      · cases charset <;> rfl
      · cases charset <;> rfl
    exact unbroken unit (mem_sanitize mem
      ⟨noReturn, noFeed, fun eq => blank (.inl eq), fun eq => blank (.inr eq)⟩)
  intro harmless unit mem
  obtain ⟨mem, noReturn, noFeed⟩ := mem_of_mem_sanitize mem
  exact harmless unit mem noReturn noFeed

/-- A field whose line is one of its own -/
def Harmless (charset : Charset) (field : JSString × JSString) : Prop :=
  charset.Unbroken field.1 ∧ charset.Unindented field.1 ∧
    ∀ unit ∈ field.2, unit ≠ 0x0D → unit ≠ 0x0A → charset.breaks unit = false

instance (charset : Charset) : DecidablePred (Harmless charset) := fun field =>
  have _rest : Decidable (∀ unit ∈ field.2, unit ≠ 0x0D → unit ≠ 0x0A →
      charset.breaks unit = false) := List.decidableBAll _ _
  instDecidableAnd

variable {charset : Charset} {name rest : JSString}

theorem unindented_append_colon :
    charset.Unindented (name ++ js ": " ++ rest) ↔ charset.Unindented name := by
  cases name with
  | nil =>
    have colon : charset.Unindented (js ": " ++ rest) := by
      intro unit head
      obtain rfl : unit = 0x3A := by
        have first : some (0x3A : UInt16) = some unit := head
        exact (Option.some.inj first).symm
      cases charset <;> rfl
    exact ⟨fun _ unit head => absurd head (by simp), fun _ => colon⟩
  | cons => exact Iff.rfl

theorem isTextLine_append_colon : IsTextLine charset (name ++ js ": " ++ rest) ↔
    charset.Unbroken name ∧ charset.Unindented name ∧ charset.Unbroken rest := by
  have colon : charset.Unbroken (js ": ") := by
    have printable : Printable (js ": ") := by decide
    exact printable.unbroken charset
  constructor
  · rintro ⟨unbroken, unindented, -⟩
    rw [Charset.unbroken_append, Charset.unbroken_append] at unbroken
    exact ⟨unbroken.1.1, unindented_append_colon.mp unindented, unbroken.2⟩
  rintro ⟨unbroken, unindented, rest⟩
  refine ⟨?_, unindented_append_colon.mpr unindented, ?_⟩
  · rw [Charset.unbroken_append, Charset.unbroken_append]
    exact ⟨⟨unbroken, colon⟩, rest⟩
  intro empty
  have none : js ": " = [] := (append_eq_nil_iff.mp (append_eq_nil_iff.mp empty).1).2
  cases none

theorem isTextLine_fieldLine_iff (charset : Charset) (field : JSString × JSString) :
    IsTextLine charset (fieldLine field) ↔ Harmless charset field := by
  rw [fieldLine, isTextLine_append_colon, unbroken_sanitize_iff]
  rfl

theorem parse_stored_iff (env : Environment) (charset : Charset) (start : JSString)
    (headers : List (JSString × Value)) (m : OutgoingMessage) :
    (∃ automatic, Automatic env automatic ∧
        parseBlock (charset.bytes (m.stored env (start ++ crlf) headers).headerText) =
          some ((start :: (fieldLines headers).map fieldLine ++ automatic).map charset.bytes)) ↔
      IsTextLine charset start ∧ ∀ field ∈ fieldLines headers, Harmless charset field := by
  have header : (m.stored env (start ++ crlf) headers).headerText =
      textLines (start :: (fieldLines headers).map fieldLine ++
        m.automatic env (start ++ crlf) headers) ++ crlf := by
    simp [headerText, stored_header, textLines_cons]
  constructor
  · rintro ⟨automatic, -, parsed⟩
    have lines := isTextLine_of_parseBlock parsed
    rw [forall_mem_append, forall_mem_cons, List.forall_mem_map] at lines
    exact ⟨lines.1.1, fun field mem =>
      (isTextLine_fieldLine_iff charset field).mp (lines.1.2 field mem)⟩
  rintro ⟨first, fields⟩
  have automatic := m.automatic_automatic env (start ++ crlf) headers
  refine ⟨_, automatic, ?_⟩
  rw [header, parseBlock_textLines_iff, forall_mem_append, forall_mem_cons, List.forall_mem_map]
  exact ⟨⟨first, fun field mem => (isTextLine_fieldLine_iff charset field).mpr (fields field mem)⟩,
    automatic.isTextLine charset⟩

theorem isTextLine_statusLine_iff (charset : Charset) (statusCode : Nat) (reason : JSString) :
    IsTextLine charset (js "HTTP/1.1 " ++ decimal statusCode ++ js " " ++ reason) ↔
      charset.Unbroken reason := by
  have printable : Printable (js "HTTP/1.1 " ++ decimal statusCode ++ js " ") :=
    printable_append.mpr ⟨printable_append.mpr ⟨by decide, printable_decimal statusCode⟩, by decide⟩
  constructor
  · intro line
    exact (Charset.unbroken_append.mp line.unbroken).2
  intro unbroken
  refine ⟨Charset.unbroken_append.mpr ⟨printable.unbroken charset, unbroken⟩, ?_, ?_⟩
  · exact (printable.isTextLine (by decide) charset).unindented
  · exact cons_ne_nil _ _

/-- The method and the path of a request stay on its first line, which starts with the method. -/
def StaysOnLine (charset : Charset) (method path : JSString) : Prop :=
  charset.Unbroken method ∧ charset.Unindented (method ++ js " ") ∧ charset.Unbroken path

theorem isTextLine_requestLine_iff (charset : Charset) (method path : JSString) :
    IsTextLine charset (method ++ js " " ++ path ++ js " HTTP/1.1") ↔
      StaysOnLine charset method path := by
  have space : charset.Unbroken (js " ") := by cases charset <;> decide
  have version : charset.Unbroken (js " HTTP/1.1") := by cases charset <;> decide
  have head : charset.Unindented (method ++ js " " ++ path ++ js " HTTP/1.1") ↔
      charset.Unindented (method ++ js " ") := by
    cases method with
    | nil => exact Iff.rfl
    | cons => exact Iff.rfl
  constructor
  · rintro ⟨unbroken, unindented, -⟩
    simp only [Charset.unbroken_append] at unbroken
    exact ⟨unbroken.1.1.1, head.mp unindented, unbroken.1.2⟩
  rintro ⟨unbroken, unindented, path⟩
  refine ⟨?_, head.mpr unindented, ?_⟩
  · simp only [Charset.unbroken_append]
    exact ⟨⟨⟨unbroken, space⟩, path⟩, version⟩
  intro empty
  have none : js " HTTP/1.1" = [] := (append_eq_nil_iff.mp empty).2
  cases none

/-! ## What is lost -/

theorem head_bytes (charset : Charset) {first : UInt16} (ascii : first.toNat < 0x80)
    (rest : JSString) : (charset.bytes (first :: rest)).head? = some first.toUInt8 := by
  cases charset with
  | oneByte => rfl
  | utf8 =>
    have small : first.toUInt8.toNat = first.toNat := by
      rw [UInt16.toNat_toUInt8]
      omega
    exact (Charset.head_utf8Write (by omega)).mpr small.symm

/-- An automatic field starts with a letter. -/
theorem Automatic.head {env : Environment} {lines : List JSString}
    (automatic : Automatic env lines) (charset : Charset) :
    ∀ line ∈ lines, (charset.bytes line).head? ≠ some 0x3A ∧
      (charset.bytes line).head? ≠ some 0x5F := by
  have letter (c : UInt16) (ascii : c.toNat < 0x80) (noColon : c.toUInt8 ≠ 0x3A)
      (noUnderscore : c.toUInt8 ≠ 0x5F) (rest : JSString) :
      (charset.bytes (c :: rest)).head? ≠ some 0x3A ∧
        (charset.bytes (c :: rest)).head? ≠ some 0x5F := by
    rw [head_bytes charset ascii]
    exact ⟨fun eq => noColon (Option.some.inj eq), fun eq => noUnderscore (Option.some.inj eq)⟩
  have connection := letter 0x43 (by decide) (by decide) (by decide)
  exact automatic.forall_line (letter 0x44 (by decide) (by decide) (by decide) _) (connection _)
    (connection _) (letter 0x54 (by decide) (by decide) (by decide) _) fun n => connection _

/-- A field that is not sent: it has no name, or that of the setter. -/
def Lost (field : JSString × JSString) : Prop :=
  field.1 = [] ∨ toLowerCase field.1 = js "__proto__"

theorem Lost.head {field : JSString × JSString} (lost : Lost field) (charset : Charset) :
    (charset.bytes (fieldLine field)).head? = some 0x3A ∨
      (charset.bytes (fieldLine field)).head? = some 0x5F := by
  obtain ⟨name, value⟩ := field
  obtain rfl | proto := lost
  · exact .inl (head_bytes charset (by decide) _)
  right
  cases name with
  | nil => cases proto
  | cons first name =>
    have lower : (if 0x41 ≤ first ∧ first ≤ 0x5A then first + 0x20 else first) = 0x5F :=
      (cons.inj proto).1
    obtain rfl : first = 0x5F := by
      split at lower
      · rename_i upper
        -- `_` is no letter
        have sum : (first.toNat + 0x20) % 65536 = 0x5F :=
          (UInt16.toNat_add first 0x20).symm.trans (congrArg UInt16.toNat lower)
        have low : 0x41 ≤ first.toNat := UInt16.le_iff_toNat_le.mp upper.1
        have high : first.toNat ≤ 0x5A := UInt16.le_iff_toNat_le.mp upper.2
        omega
      · exact lower
    exact head_bytes charset (by decide) _

/-- A block is read as the first line, the fields that were given, in some order, and the automatic
fields. -/
def Intact (env : Environment) (charset : Charset) (start : JSString)
    (given : List (JSString × Value)) (block : JSString) : Prop :=
  ∃ automatic fields, Automatic env automatic ∧ fields ~ fieldLines given ∧
    parseBlock (charset.bytes block) =
      some ((start :: fields.map fieldLine ++ automatic).map charset.bytes)

/-- The header that is stored is intact when all lines are lines of text and no field is lost. -/
theorem intact_stored_iff (env : Environment) (charset : Charset) (start : JSString)
    {given headers lost : List (JSString × Value)} (m : OutgoingMessage)
    (parts : given ~ headers ++ lost) (isLost : ∀ field ∈ fieldLines lost, Lost field) :
    Intact env charset start given (m.stored env (start ++ crlf) headers).headerText ↔
      IsTextLine charset start ∧ (∀ field ∈ fieldLines given, Harmless charset field) ∧
        fieldLines lost = [] := by
  have perm : fieldLines given ~ fieldLines headers ++ fieldLines lost :=
    (parts.flatMap_right _).trans (Perm.of_eq flatMap_append)
  constructor
  · rintro ⟨automatic, fields, isAutomatic, same, parsed⟩
    have lines := isTextLine_of_parseBlock parsed
    rw [forall_mem_append, forall_mem_cons, List.forall_mem_map] at lines
    have harmless : ∀ field ∈ fieldLines given, Harmless charset field := fun field mem =>
      (isTextLine_fieldLine_iff charset field).mp (lines.1.2 field (same.mem_iff.mpr mem))
    refine ⟨lines.1.1, harmless, eq_nil_iff_forall_not_mem.mpr fun field mem => ?_⟩
    -- the stored fields are read too, and the lost line is none of theirs
    obtain ⟨automatic', isAutomatic', parsed'⟩ :=
      (parse_stored_iff env charset start headers m).mpr ⟨lines.1.1, fun field mem =>
        harmless field (perm.mem_iff.mpr (mem_append_left _ mem))⟩
    have equal : (fields.map fieldLine ++ automatic).map charset.bytes =
        ((fieldLines headers).map fieldLine ++ automatic').map charset.bytes :=
      (cons.inj (Option.some.inj (parsed.symm.trans parsed'))).2
    have counts := congrArg (count (charset.bytes (fieldLine field))) equal
    rw [map_append, map_append, count_append, count_append] at counts
    have none : count (charset.bytes (fieldLine field)) (automatic'.map charset.bytes) = 0 := by
      refine count_eq_zero.mpr fun found => ?_
      obtain ⟨line, mem', eq⟩ := mem_map.mp found
      have letter := isAutomatic'.head charset line mem'
      rw [eq] at letter
      exact ((isLost field mem).head charset).elim letter.1 letter.2
    have all := ((same.trans perm).map fieldLine |>.map charset.bytes).count_eq
      (charset.bytes (fieldLine field))
    rw [map_append, map_append, count_append] at all
    have some : 0 < count (charset.bytes (fieldLine field))
        (((fieldLines lost).map fieldLine).map charset.bytes) :=
      count_pos_iff.mpr (mem_map_of_mem (mem_map_of_mem mem))
    omega
  rintro ⟨first, harmless, none⟩
  rw [none, append_nil] at perm
  obtain ⟨automatic, isAutomatic, parsed⟩ :=
    (parse_stored_iff env charset start headers m).mpr ⟨first, fun field mem =>
      harmless field (perm.mem_iff.mpr mem)⟩
  exact ⟨automatic, fieldLines headers, isAutomatic, perm.symm, parsed⟩

variable {env : Environment}

theorem lost_of_not_storable {field : JSString × JSString} (setter : storable env field.1 = false) :
    Lost field := by
  rw [storable, decide_eq_false_iff_not, not_not] at setter
  exact .inr ((env.toLowerCase_proto field.1).mp setter)

variable {m : OutgoingMessage} {calls : List HeaderCall}

/-- The header that `writeHead` stores is intact. -/
def ResponseIntact (env : Environment) (charset : Charset) (link : Option Link)
    (m : OutgoingMessage) (calls : List HeaderCall) (statusCode : Nat) (reason : Option JSString)
    (obj : List (JSString × Value)) : Prop :=
  Intact env charset (js "HTTP/1.1 " ++ decimal statusCode ++ js " " ++
    m.reasonPhrase statusCode reason) (givenPairs env calls obj)
    (m.writeHead env link statusCode reason obj).1.headerText

/-- The reason and the fields break no line, and where headers have been set, each field has a name
that a property can have. -/
def ResponseFits (env : Environment) (charset : Charset) (m : OutgoingMessage)
    (calls : List HeaderCall) (statusCode : Nat) (reason : Option JSString)
    (obj : List (JSString × Value)) : Prop :=
  charset.Unbroken (m.reasonPhrase statusCode reason) ∧
    (∀ field ∈ fieldLines (givenPairs env calls obj), Harmless charset field) ∧
    (calls.any HeaderCall.isSet = true →
      (∀ field ∈ fieldLines (givenPairs env calls obj), storable env field.1 = true) ∧
        ∀ field ∈ fieldLines obj, field.1 ≠ [])

theorem responseIntact_iff (charset : Charset) (link : Option Link) (given : Called env calls m)
    (unstored : m.header = none) (statusCode : Nat) (reason : Option JSString)
    (obj : List (JSString × Value)) :
    ResponseIntact env charset link m calls statusCode reason obj ↔
      ResponseFits env charset m calls statusCode reason obj := by
  have noneLost : ∀ field ∈ fieldLines [], Lost field := nofun
  rw [ResponseIntact, ResponseFits, ← isTextLine_statusLine_iff charset statusCode]
  cases progressive : calls.any HeaderCall.isSet with
  | false =>
    have alone : m.headers.isSome = false := given.holds.2.trans progressive
    obtain ⟨m', text⟩ := writeHead_headerText env link statusCode reason unstored
      (if_neg (by simp [alone]) : m.headersOf env obj = some (m, obj))
    rw [givenPairs, if_neg (by simp [progressive]), text]
    refine (intact_stored_iff env charset _ m' (by simp) noneLost).trans ?_
    simp [fieldLines]
  | true =>
    obtain ⟨m', headers, found, perm⟩ := given.headersOf unstored obj progressive
    obtain ⟨m'', text⟩ := writeHead_headerText env link statusCode reason unstored found
    rw [givenPairs, if_pos progressive, text]
    generalize inForce env (calls ++ (obj.filter (·.1 ≠ [])).map fun pair => .set pair.1 pair.2) =
      pairs at perm
    have parts : pairs ++ obj.filter (·.1 = []) ~
        headers ++ (pairs.filter (!storable env ·.1) ++ obj.filter (·.1 = [])) := by
      rw [← append_assoc]
      exact (perm_storable perm).append_right _
    have nameless (field : JSString × JSString) : field ∈ fieldLines (obj.filter (·.1 = [])) ↔
        field ∈ fieldLines obj ∧ field.1 = [] := by
      rw [mem_fieldLines_filter (p := fun name => decide (name = [])), decide_eq_true_iff]
    have set (field : JSString × JSString) : field ∈ fieldLines (pairs.filter (!storable env ·.1)) ↔
        field ∈ fieldLines pairs ∧ storable env field.1 = false := by
      rw [mem_fieldLines_filter (p := fun name => !storable env name), Bool.not_eq_true']
    have isLost : ∀ field ∈ fieldLines (pairs.filter (!storable env ·.1) ++ obj.filter (·.1 = [])),
        Lost field := by
      intro field mem
      rw [fieldLines_append, mem_append, set, nameless] at mem
      exact mem.elim (fun set => lost_of_not_storable set.2) fun nameless => .inl nameless.2
    refine (intact_stored_iff env charset _ m'' parts isLost).trans ?_
    refine and_congr_right fun _ => and_congr_right fun _ => ?_
    rw [fieldLines_append, append_eq_nil_iff, eq_nil_iff_forall_not_mem,
      eq_nil_iff_forall_not_mem, fieldLines_append, forall_mem_append]
    simp only [set, nameless, not_and, true_imp_iff, Bool.not_eq_false]
    constructor
    · rintro ⟨kept, named⟩
      exact ⟨⟨kept, fun field found => absurd found.2 (named field found.1)⟩, named⟩
    · rintro ⟨⟨kept, -⟩, named⟩
      exact ⟨kept, named⟩

/-- `_implicitHeader` of a `ClientRequest`; it throws when the header has been stored. -/
def requestHeader (env : Environment) (link : Option Link) (method path : JSString)
    (m : OutgoingMessage) : Option (OutgoingMessage × List Piece) :=
  m.renderHeaders.map fun headers => m.storeHeaders env link (requestLine method path) headers

/-- The header that a request stores by itself is intact. -/
def RequestIntact (env : Environment) (charset : Charset) (link : Option Link)
    (m : OutgoingMessage) (calls : List HeaderCall) (method path : JSString) : Prop :=
  ∃ r, m.requestHeader env link method path = some r ∧
    Intact env charset (method ++ js " " ++ path ++ js " HTTP/1.1") (inForce env calls)
      r.1.headerText

theorem requestIntact_iff (charset : Charset) (link : Option Link)
    (given : Called env calls m) (unstored : m.header = none) (method path : JSString) :
    RequestIntact env charset link m calls method path ↔ StaysOnLine charset method path ∧
      (∀ field ∈ fieldLines (inForce env calls), Harmless charset field) ∧
        ∀ field ∈ fieldLines (inForce env calls), storable env field.1 = true := by
  obtain ⟨headers, rendered, perm⟩ := given.holds.1.render unstored
  have stored : m.requestHeader env link method path =
      some (m.storeHeaders env link (requestLine method path) headers) := by
    rw [requestHeader, rendered]
    rfl
  simp only [RequestIntact, stored, Option.some.injEq, exists_eq_left']
  have set (field : JSString × JSString) :
      field ∈ fieldLines ((inForce env calls).filter (!storable env ·.1)) ↔
        field ∈ fieldLines (inForce env calls) ∧ storable env field.1 = false := by
    rw [mem_fieldLines_filter (p := fun name => !storable env name), Bool.not_eq_true']
  rw [storeHeaders_headerText, ← isTextLine_requestLine_iff]
  refine (intact_stored_iff env charset _ m (perm_storable perm)
    fun field mem => lost_of_not_storable ((set field).mp mem).2).trans ?_
  refine and_congr_right fun _ => and_congr_right fun _ => ?_
  rw [eq_nil_iff_forall_not_mem]
  simp only [set, not_and, Bool.not_eq_false]

/-- Headers that are set twice and removed, and one more with two values -/
def severalCalls : List HeaderCall :=
  [.set (js "A") (.one (js "b")), .set (js "E") (.one (js "f")),
    .set (js "a") (.one (js "b" ++ crlf ++ js "C: d")), .remove (js "e")]

end OutgoingMessage

end IoJs.Http
