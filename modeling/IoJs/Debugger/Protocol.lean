import IoJs.Buffer
import IoJs.Library.Separators
import IoJs.StringDecoder.Utf8

/-!
# Messages of the debugger's protocol

A message has header lines, an empty line and a body, whose length in bytes is in a header.
`Protocol` gets the text of the messages in chunks of characters. It keeps what it has not used, as
text, and converts it to bytes to find the body, and what follows it back to text. However the text
is cut, each message is found whole, but a header is not always read as it was written: of a value,
only what stands before the next `: ` is taken (`feed_messages_iff`).
-/

namespace IoJs.Debugger

open IoJs.Buffer IoJs.Library IoJs.RegExp IoJs.Stream List Option

/-! ## The language -/

/-- White space and line terminators -/
def isWhiteSpace (ch : UInt16) : Bool :=
  ch ∈ ([0x9, 0xA, 0xB, 0xC, 0xD, 0x20, 0xA0, 0x1680, 0x180E, 0x2028, 0x2029, 0x202F,
    0x205F, 0x3000,
    0xFEFF] : List UInt16) || (0x2000 ≤ ch && ch ≤ 0x200A)

/-- The number that decimal digits make, behind those of another -/
def decimalValue (value : Nat) : JSString → Option Nat
  | [] => some value
  | ch :: rest =>
    if 0x30 ≤ ch ∧ ch ≤ 0x39 then decimalValue (10 * value + (ch.toNat - 0x30)) rest else none

/-- `+text`, where it is an integer; otherwise it is `NaN`. -/
def toNumber (text : JSString) : Option Int :=
  let text := ((text.dropWhile isWhiteSpace).reverse.dropWhile isWhiteSpace).reverse
  match text with
  | [] => some 0
  | sign :: digits =>
    if digits ≠ [] ∧ sign = unit '-' then (decimalValue 0 digits).map fun (n : Nat) => -(n : Int)
    else if digits ≠ [] ∧ sign = unit '+' then (decimalValue 0 digits).map Int.ofNat
    else (decimalValue 0 text).map Int.ofNat

/-- `line.split(/: +/)`; the flag is up while the spaces are skipped. -/
def splitColon (skipping : Bool) : JSString → List JSString
  | [] => [[]]
  | ch :: rest =>
    if skipping ∧ ch = unit ' ' then splitColon true rest
    else if ch = unit ':' ∧ rest.head? = some (unit ' ') then [] :: splitColon true rest
    else
      match splitColon false rest with
      | [] => [[ch]]
      | part :: parts => (ch :: part) :: parts

/-- The index that `Buffer.prototype.slice` takes a number for -/
def sliceIndex (length : Nat) (i : Int) : Nat :=
  if i < 0 then (i + length).toNat else min i.toNat length

/-- `Buffer.prototype.slice` -/
def slice (bytes : List UInt8) (start stop : Int) : List UInt8 :=
  (bytes.take (sliceIndex bytes.length stop)).drop (sliceIndex bytes.length start)

/-! ## `Protocol` -/

/-- The properties of an object, in order; what is `none` is `undefined`. -/
abbrev Headers := List (JSString × Option JSString)

/-- `headers[key] = value`; that of `__proto__` has no effect. -/
def Headers.set (headers : Headers) (key : JSString) (value : Option JSString) : Headers :=
  if key = js "__proto__" then headers
  else if headers.any (·.1 = key) then
    headers.map fun header => if header.1 = key then (key, value) else header
  else headers ++ [(key, value)]

/-- `headers[key]` -/
def Headers.get (headers : Headers) (key : JSString) : Option JSString :=
  (headers.find? (·.1 = key)).bind (·.2)

/-- One line of the header -/
def Headers.read (headers : Headers) (line : JSString) : Headers :=
  let kv := splitColon false line
  headers.set (kv.getD 0 []) kv[1]?

inductive Phase where
  | headers
  | body

structure Protocol where
  -- of `res`
  raw : JSString
  headers : Headers
  state : Phase
  -- it is `none` if it is `NaN`
  contentLength : Option Int
  bodyStartByteIndex : Nat

/-- What `onResponse` is called with -/
structure Response (Json : Type) where
  headers : Headers
  body : Json

/-- What a call of `execute` does up to the next message -/
inductive Pass (Json : Type) where
  | wait (p : Protocol)
  | respond (response : Response Json) (raw : JSString) (p : Protocol)
  -- by `JSON.parse`
  | throw

namespace Protocol

/-- `_newRes`, up to the call of `execute` -/
def newRes (p : Protocol) (raw : JSString) : Protocol :=
  { p with raw, headers := [], state := .headers }

/-- The constructor -/
def new : Protocol :=
  { raw := [], headers := [], state := .headers, contentLength := none, bodyStartByteIndex := 0 }

/-- The lines of the header, up to an index -/
def readHeaders (p : Protocol) (endHeaderIndex : Nat) : Protocol :=
  let rawHeader := p.raw.take endHeaderIndex
  let headers := (splitPair (unit '\r') (unit '\n') rawHeader).foldl Headers.read p.headers
  { p with
    headers
    contentLength := (headers.get (js "Content-Length")).bind toNumber
    bodyStartByteIndex := (utf8Write rawHeader).length + 4
    state := .body }

/-- How many bytes there are behind the header -/
def received (p : Protocol) : Int := (utf8Write p.raw).length - p.bodyStartByteIndex

section Parameters

variable {Json : Type} (utf8Slice : List UInt8 → JSString) (parse : JSString → Option Json)
  (emptyObject : Json)

/-- The case of the body -/
def readBody (p : Protocol) : Pass Json :=
  match p.contentLength with
  | some contentLength =>
    if contentLength ≤ p.received then
      let buf := utf8Write p.raw
      let stop := p.bodyStartByteIndex + contentLength
      let text := utf8Slice (slice buf p.bodyStartByteIndex stop)
      match if text ≠ [] then parse text else some emptyObject with
      | some body =>
        .respond { headers := p.headers, body } (utf8Slice (slice buf stop buf.length)) p
      | none => .throw
    else .wait p
  | none => .wait p

/-- `switch (this.state)` -/
def pass (p : Protocol) : Pass Json :=
  match p.state with
  | .headers =>
    match indexOf [unit '\r', unit '\n', unit '\r', unit '\n'] p.raw with
    | none => .wait p
    | some endHeaderIndex =>
      let p := p.readHeaders endHeaderIndex
      if p.contentLength.any (p.received < ·) then .wait p
      else p.readBody utf8Slice parse emptyObject
  | .body => p.readBody utf8Slice parse emptyObject

/-- `execute('')`: the messages for which `onResponse` is called, and what is kept. It gives nothing
if it throws or is out of fuel. -/
def loop : Nat → Protocol → Option (List (Response Json) × Protocol)
  | 0, _ => none
  | fuel + 1, p =>
    match p.pass utf8Slice parse emptyObject with
    | .wait p => some ([], p)
    | .respond response raw p =>
      (loop fuel (p.newRes raw)).map fun (responses, p) => (response :: responses, p)
    | .throw => none

def execute (fuel : Nat) (p : Protocol) (d : JSString) : Option (List (Response Json) × Protocol) :=
  loop utf8Slice parse emptyObject fuel { p with raw := p.raw ++ d }

/-- `execute`, of one chunk after the other -/
def feed (fuel : Nat) (p : Protocol) : List JSString → Option (List (Response Json) × Protocol)
  | [] => some ([], p)
  | d :: chunks => do
      let (responses, p) ← p.execute utf8Slice parse emptyObject fuel d
      let (later, p) ← feed fuel p chunks
      some (responses ++ later, p)

end Parameters

end Protocol

/-! ## Messages -/

/-- A header: a name, and a value behind a colon and a space, with so many more spaces between -/
structure Header where
  name : List Char
  spaces : Nat
  value : List Char
  deriving DecidableEq

def Header.line (h : Header) : List Char :=
  h.name ++ ':' :: ' ' :: (List.replicate h.spaces ' ' ++ h.value)

/-- The characters of an encoded message -/
structure Message where
  headers : List Header
  body : List Char
  deriving DecidableEq

namespace Message

def lines (m : Message) : List (List Char) := m.headers.map Header.line

def header (m : Message) : List Char := joinPair '\r' '\n' m.lines

def text (m : Message) : List Char := m.header ++ '\r' :: '\n' :: '\r' :: '\n' :: m.body

/-- The header that tells the length of the body -/
def contentLength (m : Message) : Header :=
  ⟨"Content-Length".toList, 0, Nat.toDigits 10 (utf8Encode m.body).length⟩

/-- Headers that are lines, with a name up to the first colon, of which the last that tells a length
tells that of the body, and a body that is empty or JSON -/
structure WellFormed {Json : Type} (parse : JSString → Option Json) (m : Message) : Prop where
  lines : ∀ h ∈ m.headers, ':' ∉ h.name ∧ h.value.head? ≠ some ' ' ∧ Unbroken '\r' '\n' h.line
  length : ∃ before after, m.headers = before ++ m.contentLength :: after ∧
    ∀ h ∈ after, utf16Encode h.name ≠ js "Content-Length"
  body : m.body ≠ [] → (parse (utf16Encode m.body)).isSome = true

/-- The value of a header: that of the last line with its name -/
def value (m : Message) (name : JSString) : Option JSString :=
  (m.headers.reverse.find? fun h => utf16Encode h.name = name).map fun h => utf16Encode h.value

/-- The body that `onResponse` is to be called with -/
def json {Json : Type} (parse : JSString → Option Json) (emptyObject : Json) (m : Message) : Json :=
  if m.body = [] then emptyObject else (parse (utf16Encode m.body)).getD emptyObject

/-- No header is named `__proto__`, and none of the values that count has a colon with a space
behind it. -/
def Whole (m : Message) : Prop :=
  ∀ before h after, m.headers = before ++ h :: after →
    (∀ h' ∈ after, utf16Encode h'.name ≠ utf16Encode h.name) →
      utf16Encode h.name ≠ js "__proto__" ∧ ¬js ": " <:+: utf16Encode h.value

/-- What `execute` makes of the lines -/
def read (m : Message) : Headers := (m.lines.map utf16Encode).foldl Headers.read []

/-- What `execute` calls `onResponse` with -/
def response {Json : Type} (parse : JSString → Option Json) (emptyObject : Json) (m : Message) :
    Response Json := { headers := m.read, body := m.json parse emptyObject }

end Message

/-! ## Digits -/

theorem decimalValue_append (value : Nat) (left right : JSString) :
    decimalValue value (left ++ right) =
      (decimalValue value left).bind fun value => decimalValue value right := by
  induction left generalizing value with
  | nil => rfl
  | cons ch left ih =>
    rw [cons_append, decimalValue, decimalValue]
    split_ifs
    · exact ih _
    · rfl

theorem decimalValue_digitChar (value : Nat) {digit : Nat} (small : digit < 10) :
    decimalValue value [unit digit.digitChar] = some (10 * value + digit) := by
  have all : ∀ digit < 10, (0x30 ≤ unit digit.digitChar ∧ unit digit.digitChar ≤ 0x39) ∧
      (unit digit.digitChar).toNat - 0x30 = digit := by decide
  obtain ⟨range, eq⟩ := all digit small
  simp [decimalValue, range, eq]

theorem decimalValue_toDigits (n : Nat) :
    decimalValue 0 ((Nat.toDigits 10 n).map unit) = some n := by
  induction n using Nat.strong_induction_on with
  | _ n ih =>
    rw [Nat.toDigits_eq_if (by decide)]
    split
    · rename_i less
      have one := decimalValue_digitChar 0 less
      rw [Nat.mul_zero, Nat.zero_add] at one
      exact one
    have smaller : n / 10 < n := Nat.div_lt_self (by omega) (by decide)
    have last := decimalValue_digitChar (n / 10) (Nat.mod_lt n (show 10 > 0 by decide))
    rw [Nat.div_add_mod] at last
    simpa [decimalValue_append, ih (n / 10) smaller] using last

theorem isDigit_of_decimalValue {value : Nat} {digits : JSString} {n : Nat}
    (read : decimalValue value digits = some n) : ∀ ch ∈ digits, 0x30 ≤ ch ∧ ch ≤ 0x39 := by
  induction digits generalizing value with
  | nil => exact nofun
  | cons ch digits ih =>
    rw [decimalValue] at read
    split_ifs at read with digit
    exact forall_mem_cons.mpr ⟨digit, ih read⟩

theorem isWhiteSpace_digit {ch : UInt16} (digit : 0x30 ≤ ch ∧ ch ≤ 0x39) :
    isWhiteSpace ch = false := by
  have all : ∀ n < 0x3A, 0x30 ≤ n → isWhiteSpace (UInt16.ofNat n) = false := by decide
  have here := all ch.toNat (Nat.lt_succ_of_le digit.2) digit.1
  rwa [UInt16.ofNat_toNat] at here

theorem dropWhile_isWhiteSpace {digits : JSString} (pure : ∀ ch ∈ digits, 0x30 ≤ ch ∧ ch ≤ 0x39) :
    digits.dropWhile isWhiteSpace = digits := by
  cases digits with
  | nil => rfl
  | cons ch =>
    have other := isWhiteSpace_digit (pure ch mem_cons_self)
    rw [dropWhile_cons_of_neg (by simp [other])]

theorem toNumber_toDigits (n : Nat) : toNumber ((Nat.toDigits 10 n).map unit) = some (n : Int) := by
  have value := decimalValue_toDigits n
  have pure := isDigit_of_decimalValue value
  have filled : (Nat.toDigits 10 n).map unit ≠ [] := by
    intro empty
    exact Nat.toDigits_ne_nil (map_eq_nil_iff.mp empty)
  generalize (Nat.toDigits 10 n).map unit = digits at value pure filled
  rw [toNumber]
  have trimmed : ((digits.dropWhile isWhiteSpace).reverse.dropWhile isWhiteSpace).reverse =
    digits := by
    rw [dropWhile_isWhiteSpace pure, dropWhile_isWhiteSpace (by simpa using pure), reverse_reverse]
  obtain ⟨ch, rest, rfl⟩ := exists_cons_of_ne_nil filled
  have digit := pure ch mem_cons_self
  have minus : ch ≠ unit '-' := by
    rintro rfl
    exact absurd digit (by decide)
  have plus : ch ≠ unit '+' := by
    rintro rfl
    exact absurd digit (by decide)
  simp only [trimmed, minus, plus, and_false, if_false, value, map_some]
  rfl

/-! ## Headers -/

theorem splitColon_digits {digits : JSString} (pure : ∀ ch ∈ digits, 0x30 ≤ ch ∧ ch ≤ 0x39)
    (skipping : Bool) : splitColon skipping digits = [digits] := by
  induction digits generalizing skipping with
  | nil => rfl
  | cons ch digits ih =>
    obtain ⟨digit, pure⟩ := forall_mem_cons.mp pure
    have space : ch ≠ unit ' ' := by
      rintro rfl
      exact absurd digit (by decide)
    have colon : ch ≠ unit ':' := by
      rintro rfl
      exact absurd digit (by decide)
    rw [splitColon, if_neg (fun both => space both.2), if_neg (fun both => colon both.1), ih pure]

theorem splitColon_key {key : JSString} (plain : unit ':' ∉ key) (rest : JSString) :
    splitColon false (key ++ unit ':' :: unit ' ' :: rest) = key :: splitColon true rest := by
  induction key with
  | nil => simp [splitColon]
  | cons ch key ih =>
    rw [mem_cons, not_or] at plain
    rw [cons_append, splitColon, if_neg (fun both => absurd both.1 (by decide)),
      if_neg (fun both => plain.1 both.1.symm), ih plain.2]

theorem splitColon_spaces (spaces : Nat) {rest : JSString} :
    splitColon true (List.replicate spaces (unit ' ') ++ rest) = splitColon true rest := by
  induction spaces with
  | zero => rfl
  | succ spaces ih =>
    rw [replicate_succ, cons_append, splitColon, if_pos ⟨rfl, rfl⟩, ih]

theorem splitColon_ne_nil (skipping : Bool) (text : JSString) : splitColon skipping text ≠ [] := by
  induction text generalizing skipping with
  | nil => exact cons_ne_nil _ _
  | cons ch rest ih =>
    rw [splitColon]
    split_ifs
    · exact ih true
    · exact cons_ne_nil _ _
    · split <;> exact cons_ne_nil _ _

/-- The first part is all of a text in which no colon has a space behind it. -/
theorem head_splitColon_iff (text : JSString) :
    (splitColon false text).head? = some text ↔ ¬js ": " <:+: text := by
  have pair : js ": " = [unit ':', unit ' '] := by decide
  rw [pair]
  induction text with
  | nil => exact iff_of_true rfl (by simp)
  | cons ch rest ih =>
    rw [splitColon, if_neg fun both => Bool.false_ne_true both.1, infix_cons_iff, not_or]
    by_cases here : ch = unit ':' ∧ rest.head? = some (unit ' ')
    · obtain ⟨rest, rfl⟩ := head?_eq_some_iff.mp here.2
      rw [if_pos here, here.1]
      exact iff_of_false (by simp) fun none_ => none_.1 ⟨rest, rfl⟩
    have other : ¬[unit ':', unit ' '] <+: ch :: rest := by
      rintro ⟨more, eq⟩
      obtain ⟨rfl, rfl⟩ := List.cons.inj eq
      exact here ⟨rfl, rfl⟩
    rw [if_neg here, and_iff_right other]
    refine Iff.trans ?_ ih
    cases split : splitColon false rest with
    | nil => exact absurd split (splitColon_ne_nil _ _)
    | cons => simp

theorem splitColon_true {text : JSString} (begins : text.head? ≠ some (unit ' ')) :
    splitColon true text = splitColon false text := by
  cases text with
  | nil => rfl
  | cons ch rest =>
    have other : ch ≠ unit ' ' := fun same => begins (congrArg some same)
    simp [splitColon, other]

theorem find_map_of_ne {headers : Headers} {key other : JSString} (value : Option JSString)
    (ne : other ≠ key) :
    (headers.map fun header => if header.1 = key then (key, value) else header).find?
      (·.1 = other) = headers.find? (·.1 = other) := by
  induction headers with
  | nil => rfl
  | cons header headers ih =>
    rw [map_cons, List.find?_cons, List.find?_cons, ih]
    by_cases here : header.1 = key
    · have before : decide (header.1 = other) = false := by simpa [here] using ne.symm
      have after : decide (key = other) = false := by simpa using ne.symm
      rw [if_pos here, before, after]
    · rw [if_neg here]

theorem find_map {headers : Headers} {key : JSString} (value : Option JSString)
    (known : headers.any (·.1 = key) = true) :
    (headers.map fun header => if header.1 = key then (key, value) else header).find?
      (·.1 = key) = some (key, value) := by
  induction headers with
  | nil => cases known
  | cons header headers ih =>
    by_cases here : header.1 = key
    · simp [here]
    have later : headers.any (·.1 = key) = true := by
      rw [any_cons, decide_eq_false here, Bool.false_or] at known
      exact known
    simp [here, ih later]

namespace Headers

variable {headers : Headers} {key other : JSString}

theorem get_set (value : Option JSString) (plain : key ≠ js "__proto__") :
    (headers.set key value).get key = value := by
  rw [Headers.set, if_neg plain]
  split_ifs with known
  · rw [Headers.get, find_map value known]
    rfl
  have none : headers.find? (·.1 = key) = none := by
    rw [List.find?_eq_none]
    exact fun header mem here => known (List.any_eq_true.mpr ⟨header, mem, here⟩)
  have last : [(key, value)].find? (·.1 = key) = some (key, value) :=
    List.find?_cons_of_pos (decide_eq_true rfl)
  simp [Headers.get, none, last]

theorem get_set_of_ne (value : Option JSString) (ne : other ≠ key) :
    (headers.set key value).get other = headers.get other := by
  rw [Headers.set]
  split_ifs with proto known
  · rfl
  · rw [Headers.get, find_map_of_ne value ne, Headers.get]
  have last : [(key, value)].find? (·.1 = other) = none := by simpa using ne.symm
  simp [Headers.get, last]

theorem get_set_proto (value : Option JSString) :
    (headers.set (js "__proto__") value).get key = headers.get key := by
  rw [Headers.set, if_pos rfl]

end Headers

/-! ## One message -/

theorem utf16Encode_joinPair (lines : List (List Char)) : utf16Encode (joinPair '\r' '\n' lines) =
    joinPair (unit '\r') (unit '\n') (lines.map utf16Encode) := by
  induction lines with
  | nil => rfl
  | cons line lines ih =>
    by_cases last : lines = []
    · subst last
      rfl
    have last' : lines.map utf16Encode ≠ [] := by simpa using last
    rw [joinPair_cons line last, map_cons, joinPair_cons _ last', utf16Encode_append, ← ih]
    rfl

theorem unbroken_utf16Encode {line : List Char} (unbroken : Unbroken '\r' '\n' line) :
    Unbroken (unit '\r') (unit '\n') (utf16Encode line) := by
  induction line with
  | nil => trivial
  | cons c line ih =>
    have later := ih unbroken.tail
    rw [utf16Encode_cons]
    have next : unit '\r' ∈ utf16EncodeChar c → (utf16Encode line).head? ≠ some (unit '\n') := by
      intro first second
      obtain rfl := eq_of_unit_mem (by decide) first
      cases line with
      | nil => cases second
      | cons d line =>
        have second' : unit '\n' ∈ utf16EncodeChar d := by
          obtain ⟨single, eq, -⟩ | ⟨lead, trail, eq, -, -⟩ := utf16EncodeChar_cases d
          · rw [utf16Encode_cons, eq] at second
            simp [eq, ← some.inj second]
          rw [utf16Encode_cons, eq] at second
          simp [eq, ← some.inj second]
        obtain rfl := eq_of_unit_mem (by decide) second'
        exact unbroken.1 ⟨rfl, rfl⟩
    obtain ⟨single, eq, -⟩ | ⟨lead, trail, eq, -, plain⟩ := utf16EncodeChar_cases c
    · rw [eq] at next ⊢
      exact later.cons fun here => next (by rw [here]; exact mem_cons_self)
    rw [eq] at next ⊢
    refine (later.cons fun here => next ?_).cons fun here second => ?_
    · simp [here]
    have first : c = '\r' := eq_of_unit_mem (by decide) (by rw [eq, here]; exact mem_cons_self)
    subst first
    exact absurd (congrArg List.length eq) (show (1 : Nat) ≠ 2 by decide)

namespace Message

variable {Json : Type} {parse : JSString → Option Json} {m : Message}

/-- The end of a header -/
def emptyLine : List Char := ['\r', '\n', '\r', '\n']

theorem text_eq (m : Message) : m.text = m.header ++ (emptyLine ++ m.body) := rfl

section

variable (wellFormed : m.WellFormed parse)
include wellFormed

theorem WellFormed.filled : m.lines ≠ [] := by
  obtain ⟨before, after, eq, -⟩ := wellFormed.length
  simp [Message.lines, eq]

theorem WellFormed.line : ∀ line ∈ m.lines, line ≠ [] ∧ Unbroken '\r' '\n' line := by
  rw [Message.lines, List.forall_mem_map]
  exact fun h mem =>
    ⟨append_ne_nil_of_right_ne_nil _ (cons_ne_nil _ _), (wellFormed.lines h mem).2.2⟩

theorem WellFormed.splitPair :
    splitPair (unit '\r') (unit '\n') (utf16Encode m.header) = m.lines.map utf16Encode := by
  have filled : m.lines.map utf16Encode ≠ [] := by
    intro empty
    exact wellFormed.filled (map_eq_nil_iff.mp empty)
  rw [header, utf16Encode_joinPair, splitPair_joinPair (by decide) filled]
  rw [List.forall_mem_map]
  exact fun line mem => unbroken_utf16Encode (wellFormed.line line mem).2

theorem WellFormed.indexOf (more : List Char) : indexOf [unit '\r', unit '\n', unit '\r', unit '\n']
    (utf16Encode (m.header ++ (emptyLine ++ more))) = some (utf16Encode m.header).length := by
  have filled : m.lines.map utf16Encode ≠ [] := by
    intro empty
    exact wellFormed.filled (map_eq_nil_iff.mp empty)
  have proper : ∀ line ∈ m.lines.map utf16Encode,
      line ≠ [] ∧ Unbroken (unit '\r') (unit '\n') line := by
    rw [List.forall_mem_map]
    exact fun line mem => ⟨utf16Encode_ne_nil (wellFormed.line line mem).1,
      unbroken_utf16Encode (wellFormed.line line mem).2⟩
  rw [utf16Encode_append, header, utf16Encode_joinPair]
  exact indexOf_joinPair (by decide) filled proper

end

theorem toDigits_ascii (n : Nat) : ∀ c ∈ Nat.toDigits 10 n, c.toNat < 0x80 := by
  intro c mem
  have digit := Nat.isDigit_of_mem_toDigits (by decide) (by decide) mem
  rw [Char.isDigit, Bool.and_eq_true, decide_eq_true_eq, decide_eq_true_eq] at digit
  have le := UInt32.le_iff_toNat_le.mp digit.2
  exact Nat.lt_of_le_of_lt le (by decide)

/-- A line is split behind its name, and then where its value is. -/
theorem splitColon_line {h : Header} (name : ':' ∉ h.name) (begins : h.value.head? ≠ some ' ') :
    splitColon false (utf16Encode h.line) =
      utf16Encode h.name :: splitColon false (utf16Encode h.value) := by
  have plain : unit ':' ∉ utf16Encode h.name := by
    intro mem
    obtain ⟨c, inside, here⟩ := mem_flatMap.mp mem
    exact name (eq_of_unit_mem (by decide) here ▸ inside)
  have spaces : utf16Encode (List.replicate h.spaces ' ') = List.replicate h.spaces (unit ' ') := by
    rw [utf16Encode_ascii, map_replicate]
    intro c mem
    rw [eq_of_mem_replicate mem]
    decide
  have line : utf16Encode h.line = utf16Encode h.name ++ unit ':' :: unit ' ' ::
      (List.replicate h.spaces (unit ' ') ++ utf16Encode h.value) := by
    rw [Header.line, utf16Encode_append, utf16Encode_cons, utf16Encode_cons,
      utf16Encode_append, spaces]
    rfl
  have first : (utf16Encode h.value).head? ≠ some (unit ' ') := by
    intro space
    cases value : h.value with
    | nil =>
      rw [value] at space
      cases space
    | cons c rest =>
      rw [value, utf16Encode_cons] at space
      have mem : unit ' ' ∈ utf16EncodeChar c := by
        obtain ⟨single, eq, -⟩ | ⟨lead, trail, eq, -, -⟩ := utf16EncodeChar_cases c
        · rw [eq] at space ⊢
          exact Option.some.inj space ▸ mem_cons_self
        · rw [eq] at space ⊢
          exact Option.some.inj space ▸ mem_cons_self
      refine begins ?_
      rw [value, eq_of_unit_mem (by decide) mem]
      rfl
  rw [line, splitColon_key plain, splitColon_spaces, splitColon_true first]

/-- The last line with a name tells its value, up to a colon with a space behind it. -/
theorem get_read {headers : List Header}
    (proper : ∀ h ∈ headers, ':' ∉ h.name ∧ h.value.head? ≠ some ' ') (name : JSString) :
    (((headers.map Header.line).map utf16Encode).foldl Headers.read []).get name =
      if name = js "__proto__" then none
      else (headers.reverse.find? fun h => utf16Encode h.name = name).bind fun h =>
        (splitColon false (utf16Encode h.value)).head? := by
  induction headers using List.reverseRecOn with
  | nil => exact (ite_self _).symm
  | append_singleton headers h ih =>
    obtain ⟨proper, last⟩ := forall_mem_append.mp proper
    obtain ⟨plain, begins⟩ := last h mem_cons_self
    have read (before : Headers) : Headers.read before (utf16Encode h.line) =
        before.set (utf16Encode h.name) (splitColon false (utf16Encode h.value)).head? := by
      rw [Headers.read, splitColon_line plain begins, head?_eq_getElem?]
      rfl
    rw [map_append, map_append, foldl_append, map_singleton, map_singleton, foldl_cons, foldl_nil,
      read, reverse_append, reverse_singleton, singleton_append, List.find?_cons]
    by_cases here : utf16Encode h.name = name
    · subst here
      by_cases proto : utf16Encode h.name = js "__proto__"
      · rw [if_pos proto, proto, Headers.get_set_proto, ← proto, ih proper, if_pos proto]
      rw [Headers.get_set _ proto, if_neg proto, decide_eq_true rfl]
      rfl
    rw [Headers.get_set_of_ne _ fun same => here same.symm, ih proper, decide_eq_false here]

theorem find_last {headers before after : List Header} {h : Header}
    (split : headers = before ++ h :: after)
    (others : ∀ h' ∈ after, utf16Encode h'.name ≠ utf16Encode h.name) :
    headers.reverse.find? (fun h' => utf16Encode h'.name = utf16Encode h.name) = some h := by
  have none_ : after.reverse.find? (fun h' => utf16Encode h'.name = utf16Encode h.name) = none := by
    rw [List.find?_eq_none]
    exact fun h' mem => by simpa using others h' (mem_reverse.mp mem)
  rw [split, reverse_append, reverse_cons, append_assoc, List.find?_append, none_, singleton_append,
    List.find?_cons, decide_eq_true rfl]
  rfl

theorem exists_last {headers : List Header} {h : Header} {name : JSString}
    (found : headers.reverse.find? (fun h' => utf16Encode h'.name = name) = some h) :
    utf16Encode h.name = name ∧ ∃ before after, headers = before ++ h :: after ∧
      ∀ h' ∈ after, utf16Encode h'.name ≠ utf16Encode h.name := by
  obtain ⟨here, after, before, split, others⟩ := List.find?_eq_some_iff_append.mp found
  have name_eq : utf16Encode h.name = name := of_decide_eq_true here
  refine ⟨name_eq, before.reverse, after.reverse, ?_, fun h' mem => ?_⟩
  · rw [← reverse_reverse headers, split, reverse_append, reverse_cons, append_assoc,
      singleton_append]
  · simpa [name_eq] using others h' (mem_reverse.mp mem)

/-- The headers are read as they were written exactly if nothing is cut off from one that counts. -/
theorem WellFormed.read_iff (wellFormed : m.WellFormed parse) :
    (∀ name, m.read.get name = m.value name) ↔ m.Whole := by
  have proper : ∀ h ∈ m.headers, ':' ∉ h.name ∧ h.value.head? ≠ some ' ' := fun h mem =>
    ⟨(wellFormed.lines h mem).1, (wellFormed.lines h mem).2.1⟩
  constructor
  · intro same before h after split others
    have here := same (utf16Encode h.name)
    rw [Message.read, Message.lines, get_read proper, Message.value, find_last split others] at here
    split_ifs at here with proto
    · cases here
    exact ⟨proto, (head_splitColon_iff _).mp here⟩
  intro whole name
  rw [Message.read, Message.lines, get_read proper, Message.value]
  cases found : m.headers.reverse.find? fun h => utf16Encode h.name = name with
  | none => exact ite_self _
  | some h =>
    obtain ⟨rfl, before, after, split, others⟩ := exists_last found
    obtain ⟨other, uncut⟩ := whole before h after split others
    rw [if_neg other]
    exact (head_splitColon_iff _).mpr uncut

theorem whole_of_forall (all : ∀ h ∈ m.headers, utf16Encode h.name ≠ js "__proto__" ∧
    ¬js ": " <:+: utf16Encode h.value) : m.Whole := fun _ h _ split _ =>
  all h (split ▸ mem_append_right _ mem_cons_self)

theorem WellFormed.toNumber (wellFormed : m.WellFormed parse) :
    (m.read.get (js "Content-Length")).bind toNumber = some ((utf8Encode m.body).length : Int) := by
  obtain ⟨before, after, split, others⟩ := wellFormed.length
  have proper : ∀ h ∈ m.headers, ':' ∉ h.name ∧ h.value.head? ≠ some ' ' := fun h mem =>
    ⟨(wellFormed.lines h mem).1, (wellFormed.lines h mem).2.1⟩
  have ascii : ("Content-Length".toList.all fun c => decide (c.toNat < 0x80)) = true := by decide
  have name : utf16Encode m.contentLength.name = js "Content-Length" :=
    utf16Encode_ascii fun c mem => of_decide_eq_true (List.all_eq_true.mp ascii c mem)
  have found := find_last split (name ▸ others)
  have value : utf16Encode m.contentLength.value =
      (Nat.toDigits 10 (utf8Encode m.body).length).map unit := utf16Encode_ascii (toDigits_ascii _)
  rw [name] at found
  rw [Message.read, Message.lines, get_read proper, found, if_neg (by decide),
    Option.bind_some, value,
    splitColon_digits (isDigit_of_decimalValue (decimalValue_toDigits _))]
  exact toNumber_toDigits _

end Message

theorem sliceIndex_of_le {length i : Nat} (le : i ≤ length) : sliceIndex length i = i := by
  rw [sliceIndex, if_neg (by omega), Int.toNat_natCast, Nat.min_eq_left le]

theorem slice_append (before mid after : List UInt8) :
    slice (before ++ (mid ++ after)) before.length ((before.length : Int) + mid.length) = mid := by
  rw [slice, ← Int.natCast_add, sliceIndex_of_le (by simp only [length_append]; omega),
    sliceIndex_of_le (by simp only [length_append]; omega), take_length_add_append,
    drop_left, take_left]

theorem slice_append_right (before after : List UInt8) {stop length : Int}
    (here : stop = before.length) (all : length = (before ++ after).length) :
    slice (before ++ after) stop length = after := by
  subst here all
  rw [slice, sliceIndex_of_le (Nat.le_refl _), take_length,
    sliceIndex_of_le (by simp only [length_append]; omega), drop_left]

/-! ## The state while a message is read -/

open Message (emptyLine)

variable {Json : Type} {utf8Slice : List UInt8 → JSString} {parse : JSString → Option Json}
  {emptyObject : Json}

/-- The header of a message has been read, and `part` follows the empty line. -/
structure InBody (m : Message) (part : List Char) (p : Protocol) : Prop where
  raw : p.raw = utf16Encode (m.header ++ (emptyLine ++ part))
  headers : p.headers = m.read
  state : p.state = .body
  contentLength : p.contentLength = some ((utf8Encode m.body).length : Int)
  start : p.bodyStartByteIndex = (utf8Encode m.header).length + 4

/-- `text` is kept, of messages of which none has been read. -/
inductive Reading : List Message → List Char → Protocol → Prop
  | header {ms : List Message} {text : List Char} {p : Protocol} (raw : p.raw = utf16Encode text)
      (state : p.state = .headers) (headers : p.headers = []) : Reading ms text p
  | body {m : Message} {later : List Message} {part : List Char} {p : Protocol}
      (inBody : InBody m part p) : Reading (m :: later) (m.header ++ (emptyLine ++ part)) p

namespace InBody

variable {m : Message} {part rest : List Char} {p : Protocol}

section

variable (inBody : InBody m part p)
include inBody

theorem bytes :
    utf8Write p.raw = (utf8Encode m.header ++ utf8Encode emptyLine) ++ utf8Encode part := by
  rw [inBody.raw, utf8Write_utf16Encode, utf8Encode_append, utf8Encode_append, append_assoc]

theorem start_eq : p.bodyStartByteIndex = (utf8Encode m.header ++ utf8Encode emptyLine).length := by
  have four : (utf8Encode emptyLine).length = 4 := by decide
  simp [inBody.start, four]

theorem received : p.received = ((utf8Encode part).length : Int) := by
  simp [Protocol.received, inBody.bytes, inBody.start_eq]

theorem readBody_wait (incomplete : m.body = part ++ rest)
    (missing : rest ≠ []) : p.readBody utf8Slice parse emptyObject = .wait p := by
  have shorter : (utf8Encode part).length < (utf8Encode m.body).length := by
    obtain ⟨c, rest, rfl⟩ := exists_cons_of_ne_nil missing
    have positive : 0 < (String.utf8EncodeChar c).length :=
      length_pos_iff.mpr String.utf8EncodeChar_ne_nil
    rw [incomplete, utf8Encode_append, utf8Encode_cons, length_append, length_append]
    omega
  have less : ¬((utf8Encode m.body).length : Int) ≤ p.received := by
    rw [inBody.received]
    omega
  rw [Protocol.readBody, inBody.contentLength]
  exact if_neg less

end

theorem readBody_respond
    (decodes : ∀ text : List Char, utf8Slice (utf8Encode text) = utf16Encode text)
    (wellFormed : m.WellFormed parse) (inBody : InBody m (m.body ++ rest) p) :
    p.readBody utf8Slice parse emptyObject =
      .respond (m.response parse emptyObject) (utf16Encode rest) p := by
  have enough : ((utf8Encode m.body).length : Int) ≤ p.received := by
    simp [inBody.received, utf8Encode_append]
  have bytes := inBody.bytes
  rw [utf8Encode_append] at bytes
  have body : utf8Slice (slice (utf8Write p.raw) p.bodyStartByteIndex
      (p.bodyStartByteIndex + (utf8Encode m.body).length)) = utf16Encode m.body := by
    rw [bytes, inBody.start_eq, slice_append, decodes]
  have tail : utf8Slice (slice (utf8Write p.raw) (p.bodyStartByteIndex + (utf8Encode m.body).length)
      (utf8Write p.raw).length) = utf16Encode rest := by
    have stop : ((utf8Encode m.header ++ utf8Encode emptyLine).length : Int) +
        (utf8Encode m.body).length =
        (utf8Encode m.header ++ utf8Encode emptyLine ++ utf8Encode m.body).length := by
      rw [← Int.natCast_add, ← length_append]
    rw [bytes, inBody.start_eq, ← append_assoc, slice_append_right _ _ stop rfl, decodes]
  rw [Protocol.readBody, inBody.contentLength]
  dsimp only
  rw [if_pos enough, body, tail, inBody.headers]
  by_cases empty : m.body = []
  · rw [empty, utf16Encode_nil, if_neg (fun filled => filled rfl), Message.response, Message.json,
      if_pos empty]
  obtain ⟨json, parsed⟩ := isSome_iff_exists.mp (wellFormed.body empty)
  rw [if_pos (utf16Encode_ne_nil empty), parsed, Message.response, Message.json,
    if_neg empty, parsed]
  rfl

end InBody

theorem pass_body {p : Protocol} (state : p.state = .body) :
    p.pass utf8Slice parse emptyObject = p.readBody utf8Slice parse emptyObject := by
  rw [Protocol.pass, state]

theorem pass_header {p : Protocol} {i : Nat} (state : p.state = .headers)
    (found : indexOf [unit '\r', unit '\n', unit '\r', unit '\n'] p.raw = some i) :
    p.pass utf8Slice parse emptyObject = (p.readHeaders i).readBody utf8Slice parse
      emptyObject := by
  rw [Protocol.pass, state]
  rw [found]
  dsimp only
  split_ifs with less
  · rw [Protocol.readBody]
    cases length : (p.readHeaders i).contentLength with
    | none => rfl
    | some =>
      rw [length] at less
      exact (if_neg (Int.not_le.mpr (of_decide_eq_true less))).symm
  · rfl

theorem inBody_readHeaders {m : Message} {part : List Char} {p : Protocol}
    (wellFormed : m.WellFormed parse) (raw : p.raw = utf16Encode (m.header ++ (emptyLine ++ part)))
    (headers : p.headers = []) : InBody m part (p.readHeaders (utf16Encode m.header).length) := by
  have rawHeader : p.raw.take (utf16Encode m.header).length = utf16Encode m.header := by
    simp [raw, utf16Encode_append]
  have read : (splitPair (unit '\r') (unit '\n') (utf16Encode m.header)).foldl
    Headers.read p.headers =
      m.read := by
    rw [wellFormed.splitPair, headers, Message.read]
  refine ⟨raw, ?_, rfl, ?_, ?_⟩
  · rw [Protocol.readHeaders, rawHeader, read]
  · rw [Protocol.readHeaders, rawHeader, read]
    exact wellFormed.toNumber
  · rw [Protocol.readHeaders, rawHeader, utf8Write_utf16Encode]

namespace Reading

variable {m : Message} {ms later : List Message} {text part rest : List Char} {p : Protocol}

variable (utf8Slice emptyObject) in
theorem exists_inBody (wellFormed : m.WellFormed parse)
    (reading : Reading (m :: later) (m.header ++ (emptyLine ++ part)) p) :
    ∃ p', InBody m part p' ∧
      p.pass utf8Slice parse emptyObject = p'.readBody utf8Slice parse emptyObject := by
  generalize eq : m.header ++ (emptyLine ++ part) = text at reading
  cases reading with
  | header raw state headers =>
    subst eq
    have found := wellFormed.indexOf part
    rw [← raw] at found
    exact ⟨_, inBody_readHeaders wellFormed raw headers, pass_header state found⟩
  | body inBody =>
    obtain rfl := append_cancel_left (append_cancel_left eq)
    exact ⟨p, inBody, pass_body inBody.state⟩

variable (emptyObject) in
theorem pass_respond (decodes : ∀ text : List Char, utf8Slice (utf8Encode text) = utf16Encode text)
    (wellFormed : m.WellFormed parse) (reading : Reading (m :: later) (m.text ++ rest) p) :
    ∃ p', p.pass utf8Slice parse emptyObject =
      .respond (m.response parse emptyObject) (utf16Encode rest) p' := by
  rw [Message.text_eq, append_assoc, append_assoc] at reading
  obtain ⟨p', inBody, eq⟩ := reading.exists_inBody utf8Slice emptyObject wellFormed
  exact ⟨p', eq.trans (inBody.readBody_respond decodes wellFormed)⟩

theorem indexOf_of_short (wellFormed : m.WellFormed parse) (cut : text <+: m.header ++ emptyLine)
    (short : text ≠ m.header ++ emptyLine) :
    indexOf [unit '\r', unit '\n', unit '\r', unit '\n'] (utf16Encode text) = none := by
  obtain ⟨rest, eq⟩ := cut
  have filled : rest ≠ [] := by grind
  cases found : indexOf [unit '\r', unit '\n', unit '\r', unit '\n'] (utf16Encode text) with
  | none => rfl
  | some i =>
    have whole := wellFormed.indexOf []
    have later := indexOf_append found (utf16Encode rest)
    rw [append_nil, ← eq, utf16Encode_append, later] at whole
    cases whole
    have le := indexOf_le found
    have lengths := congrArg (List.length ∘ utf16Encode) eq
    have four : (utf16Encode emptyLine).length = 4 := by decide
    have more := length_pos_iff.mpr (utf16Encode_ne_nil filled)
    simp only [Function.comp_apply, utf16Encode_append, length_append, four,
      length_cons, length_nil] at lengths le
    omega

variable (utf8Slice emptyObject) in
theorem pass_wait (wellFormed : ∀ m ∈ ms, m.WellFormed parse) (reading : Reading ms text p)
    (cut : text <+: ms.flatMap Message.text) (short : ∀ m ∈ ms.head?, text.length < m.text.length) :
    ∃ p', p.pass utf8Slice parse emptyObject = .wait p' ∧ Reading ms text p' := by
  cases ms with
  | nil =>
    obtain rfl := prefix_nil.mp cut
    cases reading with
    | header raw state headers =>
      have none : indexOf [unit '\r', unit '\n', unit '\r', unit '\n'] p.raw = none := by
        rw [raw]
        rfl
      refine ⟨p, ?_, .header raw state headers⟩
      rw [Protocol.pass, state]
      rw [none]
  | cons m =>
    obtain ⟨wellFormed, -⟩ := forall_mem_cons.mp wellFormed
    have short := short m rfl
    have cut : text <+: m.text := prefix_of_prefix_length_le cut (prefix_append m.text _) short.le
    rw [Message.text_eq, ← append_assoc] at cut
    by_cases long : (m.header ++ emptyLine).length ≤ text.length
    · obtain ⟨part, rfl⟩ := prefix_of_prefix_length_le (prefix_append _ m.body) cut long
      obtain ⟨rest, body⟩ := (prefix_append_right_inj _).mp cut
      have missing : rest ≠ [] := by
        rintro rfl
        simp [Message.text_eq, ← body, append_nil, append_assoc] at short
      rw [append_assoc] at reading ⊢
      obtain ⟨p', inBody, eq⟩ := reading.exists_inBody utf8Slice emptyObject wellFormed
      exact ⟨p', eq.trans (inBody.readBody_wait body.symm missing), .body inBody⟩
    · have cut : text <+: m.header ++ emptyLine :=
        prefix_of_prefix_length_le cut (prefix_append _ m.body) (not_le.mp long).le
      have incomplete : text ≠ m.header ++ emptyLine := by
        rintro rfl
        exact long (Nat.le_refl _)
      cases reading with
      | header raw state headers =>
        refine ⟨p, ?_, .header raw state headers⟩
        rw [Protocol.pass, state]
        rw [raw, indexOf_of_short wellFormed cut incomplete]
      | body => simp at long

/-- What has been read of a text, and what is kept -/
structure Upto (ms : List Message) (text : List Char) (done later : List Message) (tail : List Char)
    (p : Protocol) : Prop where
  messages : ms = done ++ later
  text : text = done.flatMap Message.text ++ tail
  short : ∀ m ∈ later.head?, tail.length < m.text.length
  reading : Reading later tail p

theorem raw (reading : Reading ms text p) : p.raw = utf16Encode text := by
  cases reading with
  | header raw => exact raw
  | body inBody => exact inBody.raw

theorem append (reading : Reading ms text p) (d : List Char) :
    Reading ms (text ++ d) { p with raw := p.raw ++ utf16Encode d } := by
  have both : p.raw ++ utf16Encode d = utf16Encode (text ++ d) := by
    rw [reading.raw, utf16Encode_append]
  cases reading with
  | header raw state headers => exact .header both state headers
  | body inBody =>
    rw [append_assoc, append_assoc] at both ⊢
    exact .body ⟨both, inBody.headers, inBody.state, inBody.contentLength, inBody.start⟩

variable (emptyObject) in
theorem loop_upto (decodes : ∀ text : List Char, utf8Slice (utf8Encode text) = utf16Encode text)
    (wellFormed : ∀ m ∈ ms, m.WellFormed parse) (reading : Reading ms text p)
    (cut : text <+: ms.flatMap Message.text) {fuel : Nat} (enough : ms.length < fuel) :
    ∃ done later tail p', Protocol.loop utf8Slice parse emptyObject fuel p =
      some (done.map (Message.response parse emptyObject), p') ∧
      Upto ms text done later tail p' := by
  induction fuel generalizing ms text p with
  | zero => exact absurd enough (Nat.not_lt_zero _)
  | succ fuel ih =>
    by_cases short : ∀ m ∈ ms.head?, text.length < m.text.length
    · obtain ⟨p', wait, kept⟩ := reading.pass_wait utf8Slice emptyObject wellFormed cut short
      exact ⟨[], ms, text, p', by rw [Protocol.loop, wait]; rfl, rfl, rfl, short, kept⟩
    · cases ms with
      | nil =>
        refine absurd (fun m mem => ?_) short
        cases mem
      | cons m later =>
        have complete : m.text.length ≤ text.length := by simpa using short
        obtain ⟨rest, rfl⟩ := prefix_of_prefix_length_le (prefix_append m.text _) cut complete
        obtain ⟨here, wellFormed⟩ := forall_mem_cons.mp wellFormed
        obtain ⟨p', respond⟩ := reading.pass_respond emptyObject decodes here
        have next : Reading later rest (p'.newRes (utf16Encode rest)) := .header rfl rfl rfl
        obtain ⟨done, later, tail, p'', result, upto⟩ :=
          ih wellFormed next ((prefix_append_right_inj _).mp cut) (Nat.lt_of_succ_lt_succ enough)
        refine ⟨m :: done, later, tail, p'', ?_, ?_, ?_, upto.short, upto.reading⟩
        · simp [Protocol.loop, respond, result]
        · simp [upto.messages]
        · simp [upto.text]

variable (emptyObject) in
theorem feed_upto (decodes : ∀ text : List Char, utf8Slice (utf8Encode text) = utf16Encode text)
    (wellFormed : ∀ m ∈ ms, m.WellFormed parse) (reading : Reading ms text p)
    (short : ∀ m ∈ ms.head?, text.length < m.text.length) {chunks : List (List Char)}
    (cut : text ++ chunks.flatten <+: ms.flatMap Message.text) {fuel : Nat}
    (enough : ms.length < fuel) :
    ∃ done later tail p', p.feed utf8Slice parse emptyObject fuel (chunks.map utf16Encode) =
        some (done.map (Message.response parse emptyObject), p') ∧
      Upto ms (text ++ chunks.flatten) done later tail p' := by
  induction chunks generalizing ms text p with
  | nil => exact ⟨[], ms, text, p, rfl, rfl, by rw [flatten_nil, append_nil]; rfl, short, reading⟩
  | cons d chunks ih =>
    rw [flatten_cons, ← append_assoc] at cut ⊢
    obtain ⟨done, later, tail, p', result, upto⟩ := (reading.append d).loop_upto emptyObject decodes
      wellFormed ((prefix_append _ _).trans cut) enough
    obtain ⟨messages, text_, short', kept⟩ := upto
    subst messages
    rw [text_, append_assoc, flatMap_append] at cut
    obtain ⟨done', later', tail', p'', result', messages', text', short', kept'⟩ :=
      ih (fun m mem => wellFormed m (mem_append_right done mem)) kept short'
        ((prefix_append_right_inj _).mp cut)
        (by rw [length_append] at enough; omega)
    refine ⟨done ++ done', later', tail', p'', ?_, ?_, ?_, short', kept'⟩
    · simp [Protocol.feed, Protocol.execute, result, result']
    · simp [messages']
    · simp [text_, text']

end Reading

section

variable {Json : Type} {utf8Slice : List UInt8 → JSString} {parse : JSString → Option Json}
  {emptyObject : Json}
  (decodes : ∀ text : List Char, utf8Slice (utf8Encode text) = utf16Encode text)
  {ms : List Message} (wellFormed : ∀ m ∈ ms, m.WellFormed parse) {chunks : List (List Char)}
  (cut : chunks.flatten <+: ms.flatMap Message.text) {fuel : Nat} (enough : ms.length < fuel)
include decodes wellFormed cut enough

/-- However the text of messages is cut between characters, each message is handed over once and in
order, and what is kept is what follows the last one that is complete. -/
theorem feed_messages :
    ∃ done later tail p, ms = done ++ later ∧ chunks.flatten = done.flatMap Message.text ++ tail ∧
      (∀ m ∈ later.head?, tail.length < m.text.length) ∧
      (chunks.flatten = ms.flatMap Message.text → done = ms ∧ tail = []) ∧
      Protocol.new.feed utf8Slice parse emptyObject fuel (chunks.map utf16Encode) =
        some (done.map (Message.response parse emptyObject), p) ∧
      p.raw = utf16Encode tail := by
  have first_short : ∀ m ∈ ms.head?, ([] : List Char).length < m.text.length := by
    simp [Message.text]
  have first : Reading ms [] Protocol.new := .header rfl rfl rfl
  obtain ⟨done, later, tail, p, result, messages, text, short, reading⟩ :=
    first.feed_upto emptyObject decodes wellFormed first_short cut enough
  refine ⟨done, later, tail, p, messages, text, short, ?_, result, reading.raw⟩
  intro whole
  subst messages
  rw [nil_append] at text
  rw [text, flatMap_append] at whole
  have rest := append_cancel_left whole
  cases later with
  | nil => exact ⟨(append_nil done).symm, rest⟩
  | cons m =>
    have less := short m rfl
    rw [rest, flatMap_cons, length_append] at less
    omega

/-- `onResponse` is called with the headers and the body of a message. -/
structure Answers {Json : Type} (parse : JSString → Option Json) (emptyObject : Json) (m : Message)
    (response : Response Json) : Prop where
  headers : ∀ name, response.headers.get name = m.value name
  body : response.body = m.json parse emptyObject

/-- **When each message is answered for what it is**, however the text is cut between characters.
Each message that is complete is handed over once and in order, with its body, and what is kept is
what follows the last one; the headers are those of the message exactly if none of the values that
count has a colon with a space behind it, and no header is named `__proto__`. -/
theorem feed_messages_iff :
    ∃ done later tail responses p, ms = done ++ later ∧
      chunks.flatten = done.flatMap Message.text ++ tail ∧
      (∀ m ∈ later.head?, tail.length < m.text.length) ∧
      (chunks.flatten = ms.flatMap Message.text → done = ms ∧ tail = []) ∧
      Protocol.new.feed utf8Slice parse emptyObject fuel (chunks.map utf16Encode) =
        some (responses, p) ∧
      p.raw = utf16Encode tail ∧
      responses.map Response.body = done.map (Message.json parse emptyObject) ∧
      (Forall₂ (Answers parse emptyObject) done responses ↔ ∀ m ∈ done, m.Whole) := by
  obtain ⟨done, later, tail, p, rfl, text, short, whole, result, raw⟩ :=
    @feed_messages Json utf8Slice parse emptyObject decodes ms wellFormed chunks cut fuel enough
  refine ⟨done, later, tail, _, p, rfl, text, short, whole, result, raw, ?_, ?_⟩
  · rw [List.map_map]
    rfl
  rw [forall₂_map_right_iff, forall₂_same]
  refine forall_congr' fun m => forall_congr' fun mem => ?_
  have formed := wellFormed m (mem_append_left _ mem)
  rw [← formed.read_iff]
  exact ⟨fun answers => answers.headers, fun same => ⟨same, rfl⟩⟩

end

/-- The bodies that are parsed below; the value of a string is its text. -/
def parseString (text : JSString) : Option JSString :=
  if text = [unit '"', 0xE9, unit '"'] then some [0xE9] else none

/-- Two messages, with a body of three characters in four bytes and with an empty one; the first is
cut in its body, and the last chunk has its end and the other. -/
theorem feed_messages_of_two :
    ∃ responses p, Protocol.new.feed (StringDecoder.utf8ToString "utf8") parseString [] 3
        ["Content-Length: 4\r\n\r\n\"".toList.map unit, [0xE9],
          "\"Type: connect\r\nContent-Length: 0\r\n\r\n".toList.map unit] =
      some (responses, p) ∧ p.raw = [] ∧
      Forall₂ (Answers parseString []) [⟨[⟨"Content-Length".toList, 0, ['4']⟩], ['"', 'é', '"']⟩,
        ⟨[⟨"Type".toList, 0, "connect".toList⟩, ⟨"Content-Length".toList, 0, ['0']⟩], []⟩]
          responses := by
  have wellFormed : ∀ m ∈ ([⟨[⟨"Content-Length".toList, 0, ['4']⟩], ['"', 'é', '"']⟩,
      ⟨[⟨"Type".toList, 0, "connect".toList⟩, ⟨"Content-Length".toList, 0, ['0']⟩], []⟩] :
        List Message), m.WellFormed parseString := by
    rw [forall_mem_cons, forall_mem_singleton]
    refine ⟨⟨by decide, ⟨[], [], by rfl, by decide⟩, ?_⟩,
      ⟨by decide, ⟨[⟨"Type".toList, 0, "connect".toList⟩], [], by rfl, by decide⟩, ?_⟩⟩
    · intro _
      decide
    · simp
  obtain ⟨done, later, tail, responses, p, -, -, -, whole, result, raw, -, answered⟩ :=
    @feed_messages_iff _ _ parseString [] StringDecoder.utf8ToString_utf8Encode _ wellFormed
      ["Content-Length: 4\r\n\r\n\"".toList, ['é'],
        "\"Type: connect\r\nContent-Length: 0\r\n\r\n".toList] prefix_rfl 3 (by decide)
  obtain ⟨rfl, rfl⟩ := whole (by decide)
  refine ⟨responses, p, result, raw, answered.mpr ?_⟩
  rw [forall_mem_cons, forall_mem_singleton]
  exact ⟨Message.whole_of_forall (by decide), Message.whole_of_forall (by decide)⟩

/-- A header that tells what a debugger is embedded in, with a colon and a space in its value -/
def embedded : Message :=
  ⟨[⟨"Embedding-Host".toList, 0, "node: v2.0.0".toList⟩, ⟨"Content-Length".toList, 0, ['0']⟩], []⟩

/-- The value is cut off at the colon. -/
theorem not_feed_messages :
    ¬∀ (utf8Slice : List UInt8 → JSString) (parse : JSString → Option JSString)
    (m : Message), (∀ text : List Char, utf8Slice (utf8Encode text) = utf16Encode text) →
      m.WellFormed parse → ∃ responses p,
        Protocol.new.feed utf8Slice parse [] 2 [utf16Encode m.text] = some (responses, p) ∧
          Forall₂ (Answers parse []) [m] responses := by
  intro claim
  have wellFormed : embedded.WellFormed parseString :=
    ⟨by decide, ⟨[⟨"Embedding-Host".toList, 0, "node: v2.0.0".toList⟩], [], by rfl, by decide⟩,
      fun filled => absurd rfl filled⟩
  have decodes := StringDecoder.utf8ToString_utf8Encode
  obtain ⟨responses, p, result, answered⟩ := claim _ _ embedded decodes wellFormed
  obtain ⟨done, later, tail, p', -, -, -, all, result', -⟩ :=
    @feed_messages _ _ _ [] decodes [embedded] (by simpa using wellFormed) [embedded.text]
      (by simp) 2 (by decide)
  obtain ⟨rfl, -⟩ := all (by simp)
  obtain ⟨rfl, -⟩ := Prod.mk.inj (Option.some.inj (result'.symm.trans result))
  have whole := wellFormed.read_iff.mp (forall₂_cons.mp answered).1.headers
  exact (whole [] _ _ rfl (by decide)).2 (by decide)

end IoJs.Debugger
