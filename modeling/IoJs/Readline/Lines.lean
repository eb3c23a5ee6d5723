import IoJs.Library.LineEndings
import IoJs.StringDecoder.Utf8

/-!
# The lines of an input that is no terminal

`_normalWrite` decodes a buffer and splits it at `/\r?\n|\r(?!\n)/`. What is behind the last ending
waits in `_line_buffer`; `_sawReturn` keeps that the last ending was a CR at the very end, whose LF
may come with the next buffer.
-/

namespace IoJs.Readline

open IoJs.Library IoJs.Stream List Option
open IoJs.StringDecoder (Awaits)

/-- `'\r'` -/
def return_ : UInt16 := 0x0D

/-- `'\n'` -/
def feed : UInt16 := 0x0A

/-- `string.split(lineEnding)` -/
def splitLineEnding (string : JSString) : List JSString := splitLines return_ feed false string

/-- `lineEnding.test(string)` -/
def testLineEnding (string : JSString) : Bool := string.any fun unit =>
    unit = return_ || unit = feed

inductive Event where
  /-- `this.emit('line', line)` -/
  | line (line : JSString)
  /-- `cb(line)`, the answer to a question -/
  | answer (line : JSString)
  | pause
  | close

/-- What the input of an `Interface` reads and writes -/
structure Interface where
  decoder : StringDecoder
  sawReturn : Bool
  lineBuffer : Option JSString
  /-- A `_questionCallback` is set. -/
  questionCallback : Bool
  paused : Bool
  closed : Bool
  /-- What it has emitted -/
  events : List Event

namespace Interface

/-- The constructor -/
def new : Interface :=
  { decoder := StringDecoder.new "utf8", sawReturn := false, lineBuffer := none,
    questionCallback := false, paused := false, closed := false, events := [] }

def emit (event : Event) (i : Interface) : Interface := { i with events := i.events ++ [event] }

def onLine (i : Interface) (line : JSString) : Interface :=
  if i.questionCallback then emit (.answer line) { i with questionCallback := false }
  else i.emit (.line line)

def pause (i : Interface) : Interface :=
  if i.paused then i else emit .pause { i with paused := true }

def close (i : Interface) : Interface :=
  if i.closed then i else emit .close { i.pause with closed := true }

/-- What `_normalWrite` does with what has been decoded, behind an LF that was left out -/
def addString (string : JSString) (i : Interface) : Interface :=
  let newPartContainsEnding := testLineEnding string
  let lineBuffer := i.lineBuffer.getD []
  let string := lineBuffer ++ string
  let i := { i with lineBuffer := if lineBuffer = [] then i.lineBuffer else none }
  if newPartContainsEnding then
    let lines := splitLineEnding string
    lines.dropLast.foldl onLine
      { i with
        sawReturn := decide (string.getLast? = some return_)
        lineBuffer := lines.getLast? }
  else if string ≠ [] then { i with lineBuffer := some string }
  else i

def normalWrite (toString : ToString) (i : Interface) : Option (List UInt8) → Interface
  | none => i
  | some b =>
    let written := i.decoder.write toString b
    addString (if i.sawReturn then dropFeed feed written.2 else written.2)
      { i with decoder := written.1, sawReturn := false }

/-- `ondata`, which is removed on `'close'` -/
def ondata (toString : ToString) (i : Interface) (data : List UInt8) : Interface :=
  if i.closed then i else i.normalWrite toString (some data)

/-- `onend`, too -/
def onend (i : Interface) : Interface :=
  if i.closed then i
  else
    match i.lineBuffer with
    | some string => if string.length > 0 then (i.emit (.line string)).close else i.close
    | none => i.close

end Interface

/-- The pieces of a text, the last one only if there is something in it -/
def pieces (text : JSString) : List JSString :=
  let lines := splitLineEnding text
  if lines.getLast? = some [] then lines.dropLast else lines

/-! ## One string more -/

theorem unended_of_test {string : JSString} (none_ : testLineEnding string = false) :
    Unended return_ feed string := by
  intro unit mem
  have other := List.any_eq_false.mp none_ unit mem
  rw [Bool.or_eq_true, decide_eq_true_eq, decide_eq_true_eq] at other
  exact not_or.mp other

namespace Interface

variable {i : Interface}

section

variable (noQuestion : i.questionCallback = false)
include noQuestion

theorem onLine_line (line : JSString) : i.onLine line = i.emit (.line line) := by
  rw [onLine, noQuestion]
  rfl

theorem emit_lines (lines : List JSString) :
    lines.foldl onLine i = { i with events := i.events ++ lines.map .line } := by
  induction lines generalizing i with
  | nil => rw [foldl_nil, map_nil, append_nil]
  | cons line lines ih =>
    have again : (i.emit (.line line)).questionCallback = false := noQuestion
    rw [foldl_cons, onLine_line noQuestion, ih again, emit, map_cons, append_assoc]
    rfl

theorem addString_lines
    (unended : Unended return_ feed (i.lineBuffer.getD [])) (string : JSString) :
    ∃ lines last lineBuffer, splitLineEnding (i.lineBuffer.getD [] ++ string) = lines ++ [last] ∧
      lineBuffer.getD [] = last ∧
      i.addString string = { i with
          lineBuffer
          sawReturn :=
            if testLineEnding string then decide (string.getLast? = some return_) else i.sawReturn
          events := i.events ++ lines.map .line } := by
  rw [addString]
  cases ending : testLineEnding string with
  | false =>
    have whole := splitLines_unended (unended.append (unended_of_test ending))
    by_cases some_ : i.lineBuffer.getD [] ++ string = []
    · refine ⟨[], _, i.lineBuffer, whole, ?_, ?_⟩
      · rw [(append_eq_nil_iff.mp some_).2, append_nil]
      rw [if_neg Bool.false_ne_true, if_neg (not_not.mpr some_),
        if_pos (append_eq_nil_iff.mp some_).1]
      simp only [Bool.false_eq_true, if_false, map_nil, append_nil]
    refine ⟨[], _, some (i.lineBuffer.getD [] ++ string), whole, rfl, ?_⟩
    rw [if_neg Bool.false_ne_true, if_pos some_]
    simp only [Bool.false_eq_true, if_false, map_nil, append_nil]
  | true =>
    have filled : string ≠ [] := by
      rintro rfl
      cases ending
    have some_ : splitLineEnding (i.lineBuffer.getD [] ++ string) ≠ [] := splitLines_ne_nil
    have last := List.getLast?_eq_some_getLast some_
    have same : (i.lineBuffer.getD [] ++ string).getLast? = string.getLast? := by
      rw [List.getLast?_append, List.getLast?_eq_some_getLast filled]
      rfl
    refine ⟨_, _, (splitLineEnding (i.lineBuffer.getD [] ++ string)).getLast?,
      (dropLast_append_getLast some_).symm, ?_, ?_⟩
    · rw [last]
      rfl
    rw [if_pos rfl, if_pos rfl, same]
    exact emit_lines (i := { i with
      sawReturn := decide (string.getLast? = some return_)
      lineBuffer := (splitLineEnding (i.lineBuffer.getD [] ++ string)).getLast? }) noQuestion _

end

end Interface

/-! ## One buffer more -/

theorem head_ne_feed {c : Char} (long : 1 < c.utf8Size) (rest : List Char) :
    (utf16Encode (c :: rest)).head? ≠ some feed := by
  intro head
  have large : ¬c.val ≤ 127 := fun small =>
    absurd (Char.utf8Size_eq_one_iff.mpr small) (Nat.ne_of_gt long)
  have value : c.toNat < 0x10000 → c.toNat = 10 → False := fun _ ten => large (by
    show c.toNat ≤ 127
    omega)
  have ten : feed.toNat = 10 := by decide
  rw [utf16Encode_cons] at head
  obtain ⟨unit, eq, plain, same⟩ | ⟨lead, trail, eq, -, first, -⟩ := utf16EncodeChar_units c
  · rw [eq] at head
    obtain rfl : unit = feed := some.inj head
    exact value plain (same.symm.trans ten)
  rw [eq] at head
  obtain rfl : lead = feed := some.inj head
  omega

/-- The interface has read `done`; it has `pending` of the next character, and `rest` is to come. -/
structure Reads (i : Interface) (done : JSString) (pending : List UInt8) (rest : List Char) :
    Prop where
  awaits : Awaits i.decoder pending rest
  lines : ∃ lines, splitLineEnding done = lines ++ [i.lineBuffer.getD []] ∧
    i.events = lines.map .line
  /-- The flag is set for a CR only, -/
  sawReturn : i.sawReturn = true → returned return_ false done = true
  /-- and one for that it is not set has no LF behind it. -/
  alone : returned return_ false done = true → i.sawReturn = false →
    (utf16Encode rest).head? ≠ some feed
  noQuestion : i.questionCallback = false
  notPaused : i.paused = false
  notClosed : i.closed = false

theorem utf16Encode_ne_nil {text : List Char} (some_ : text ≠ []) : utf16Encode text ≠ [] := by
  obtain ⟨c, rest, rfl⟩ := exists_cons_of_ne_nil some_
  rw [utf16Encode_cons]
  rcases utf16EncodeChar_cases c with ⟨unit, one, -⟩ | ⟨lead, trail, two, -⟩
  · rw [one]
    exact cons_ne_nil _ _
  rw [two]
  exact cons_ne_nil _ _

/-- The string that is left once an LF behind a CR is left out. -/
def afterReturn (i : Interface) (string : JSString) : JSString :=
  if i.sawReturn then dropFeed feed string else string

theorem Reads.initial (text : List Char) : Reads .new [] [] text where
  awaits := .new text
  lines := ⟨[], rfl, rfl⟩
  sawReturn unset := by cases unset
  alone unset := by cases unset
  noQuestion := rfl
  notPaused := rfl
  notClosed := rfl

namespace Reads

variable {i : Interface} {done : JSString} {pending pending' : List UInt8}
  {rest rest' now : List Char} {d : StringDecoder}
variable {toString : ToString}

theorem unended (reads : Reads i done pending rest) :
    Unended return_ feed (i.lineBuffer.getD []) := by
  obtain ⟨lines, split, -⟩ := reads.lines
  have mem : i.lineBuffer.getD [] ∈ splitLines return_ feed false done := by
    rw [splitLineEnding] at split
    rw [split]
    exact mem_append_right _ mem_cons_self
  exact unended_of_mem_splitLines _ mem

theorem afterReturn_eq (reads : Reads i done pending (now ++ rest)) :
    splitLines return_ feed (returned return_ false done) (utf16Encode now) =
      splitLineEnding (afterReturn i (utf16Encode now)) := by
  rw [afterReturn, splitLineEnding]
  cases saw : i.sawReturn with
  | true =>
    rw [reads.sawReturn saw, if_pos rfl]
    exact splitLines_true
  | false =>
    rw [if_neg Bool.false_ne_true]
    cases behind : returned return_ false done with
    | false => rfl
    | true =>
      have other : (utf16Encode now).head? ≠ some feed := by
        intro head
        refine reads.alone behind saw ?_
        rw [utf16Encode_append, List.head?_append, head]
        rfl
      rw [splitLines_true, dropFeed_eq other]

theorem afterReturn_nil (i : Interface) : afterReturn i [] = [] := by
  rw [afterReturn]
  split_ifs
  · rfl
  · rfl

theorem returned_afterReturn {string : JSString} (filled : string ≠ []) (behind : Bool) :
    returned return_ behind string = decide ((afterReturn i string).getLast? = some return_) := by
  have same : string.getLast? = some return_ ↔ (afterReturn i string).getLast? = some return_ := by
    rw [afterReturn]
    split_ifs
    · cases string with
      | nil => rfl
      | cons unit string =>
        rw [dropFeed]
        split_ifs with here
        · cases string with
          | nil =>
            rw [here]
            decide
          | cons => rw [List.getLast?_cons_cons]
        · rfl
    · rfl
  rw [returned_eq filled, decide_eq_decide]
  exact same

/-- Of a chunk, the characters are read that it completes. -/
theorem read (reads : Reads i done pending (now ++ rest)) (awaits : Awaits d pending' rest)
    (long : now = [] → ∀ c later, rest = c :: later → 1 < c.utf8Size) :
    Reads (Interface.addString (afterReturn i (utf16Encode now))
      { i with decoder := d, sawReturn := false }) (done ++ utf16Encode now) pending' rest := by
  obtain ⟨lines, split, events⟩ := reads.lines
  obtain ⟨more, last, lineBuffer, split', rfl, added⟩ := Interface.addString_lines
    (i := { i with decoder := d, sawReturn := false }) reads.noQuestion reads.unended
    (afterReturn i (utf16Encode now))
  have joined : splitLineEnding (done ++ utf16Encode now) =
      lines ++ (more ++ [lineBuffer.getD []]) := by
    rw [splitLineEnding, splitLines_append (by decide) split, reads.afterReturn_eq, ← split']
    exact congrArg (lines ++ ·) (splitLines_continue reads.unended).symm
  have behind : utf16Encode now ≠ [] → returned return_ false (done ++ utf16Encode now) =
      decide ((afterReturn i (utf16Encode now)).getLast? = some return_) := by
    intro filled
    rw [returned_append]
    exact returned_afterReturn filled _
  rw [added]
  refine ⟨awaits, ⟨lines ++ more, ?_, ?_⟩, ?_, ?_, reads.noQuestion, reads.notPaused,
    reads.notClosed⟩
  · rw [joined, append_assoc]
  · rw [events, map_append]
  · intro saw
    cases ending : testLineEnding (afterReturn i (utf16Encode now)) with
    | false =>
      rw [ending] at saw
      cases saw
    | true =>
      rw [ending] at saw
      have filled : utf16Encode now ≠ [] := by
        intro none_
        rw [none_, afterReturn_nil] at ending
        cases ending
      rw [behind filled]
      exact saw
  intro returned_ unset
  by_cases none_ : now = []
  · cases rest with
    | nil => exact nofun
    | cons c later => exact head_ne_feed (long none_ c later rfl) later
  rw [behind (utf16Encode_ne_nil none_)] at returned_
  cases ending : testLineEnding (afterReturn i (utf16Encode now)) with
  | false =>
    have unended := unended_of_test ending return_
      (mem_of_getLast? (of_decide_eq_true returned_))
    exact absurd rfl unended.1
  | true =>
    rw [ending] at unset
    exact absurd (returned_.symm.trans unset) (by decide)

theorem ondata (decodes : ∀ text, toString "utf8" (utf8Encode text) = utf16Encode text)
    {chunk more : List UInt8} (reads : Reads i done pending rest)
    (sent : pending ++ (chunk ++ more) = utf8Encode rest) (filled : chunk ≠ []) :
    ∃ now rest' pending', rest = now ++ rest' ∧ pending' ++ more = utf8Encode rest' ∧
      Reads (i.ondata toString chunk) (done ++ utf16Encode now) pending' rest' := by
  obtain ⟨now, rest', pending', rfl, left, written, awaits⟩ := reads.awaits.write decodes sent
  have long : now = [] → ∀ c later, rest' = c :: later → 1 < c.utf8Size := by
    rintro rfl c later rfl
    have short := awaits.length_lt
    have some_ : pending' ≠ [] := by
      rintro rfl
      rw [nil_append, ← left, ← append_assoc, nil_append] at sent
      exact filled (append_eq_nil_iff.mp (append_cancel_right
        (sent.trans (nil_append more).symm))).2
    exact Nat.lt_of_le_of_lt (length_pos_iff.mpr some_) short
  have read := reads.read awaits long
  refine ⟨now, rest', pending', rfl, left, ?_⟩
  rw [Interface.ondata, reads.notClosed, if_neg Bool.false_ne_true, Interface.normalWrite, written]
  exact read

theorem ondatas (decodes : ∀ text, toString "utf8" (utf8Encode text) = utf16Encode text)
    {chunks : List (List UInt8)} (reads : Reads i done pending rest)
    (sent : pending ++ chunks.flatten = utf8Encode rest) (filled : ∀ chunk ∈ chunks, chunk ≠ []) :
    Reads (chunks.foldl (Interface.ondata toString) i) (done ++ utf16Encode rest) [] [] := by
  induction chunks generalizing i done pending rest with
  | nil =>
    rw [flatten_nil, append_nil] at sent
    obtain rfl := reads.awaits.eq_nil sent
    obtain rfl := sent
    rw [utf16Encode_nil, append_nil]
    exact reads
  | cons chunk chunks ih =>
    obtain ⟨here, later⟩ := forall_mem_cons.mp filled
    obtain ⟨now, rest', pending', rfl, left, reads'⟩ := reads.ondata decodes sent here
    rw [utf16Encode_append, ← append_assoc]
    exact ih reads' left later

theorem onend (reads : Reads i done [] []) :
    i.onend.events = (pieces done).map .line ++ [.pause, .close] := by
  obtain ⟨lines, split, events⟩ := reads.lines
  have close : ∀ i' : Interface, i'.paused = false → i'.closed = false →
      i'.close.events = i'.events ++ [.pause, .close] := by
    intro i' paused closed
    simp only [Interface.close, Interface.pause, Interface.emit, paused, closed,
      Bool.false_eq_true, if_false, append_assoc]
    rfl
  have last : (lines ++ [i.lineBuffer.getD []]).getLast? = some (i.lineBuffer.getD []) :=
    List.getLast?_concat
  rw [pieces, split, Interface.onend, reads.notClosed, if_neg Bool.false_ne_true]
  cases buffer : i.lineBuffer with
  | none =>
    rw [buffer, getD_none] at last
    rw [getD_none, last, if_pos rfl, dropLast_concat, ← events]
    exact close i reads.notPaused reads.notClosed
  | some string =>
    rw [buffer, getD_some] at last
    rw [getD_some, last]
    cases string with
    | nil =>
      rw [if_pos rfl, dropLast_concat, ← events]
      exact close i reads.notPaused reads.notClosed
    | cons unit string =>
      have filled : (unit :: string).length > 0 := Nat.succ_pos _
      have other : some (unit :: string) ≠ some [] := nofun
      show (if (unit :: string).length > 0 then _ else _ : Interface).events = _
      rw [if_pos filled, if_neg other, map_append, ← events]
      exact close (i.emit (.line (unit :: string))) reads.notPaused reads.notClosed

end Reads

/-- **The lines do not depend on the buffers.** -/
theorem lines_of_chunks {toString : ToString}
    (decodes : ∀ text, toString "utf8" (utf8Encode text) = utf16Encode text) (text : List Char)
    (chunks : List (List UInt8)) (cut : chunks.flatten = utf8Encode text)
    (filled : ∀ chunk ∈ chunks, chunk ≠ []) :
    (chunks.foldl (Interface.ondata toString) Interface.new).onend.events =
      (pieces (utf16Encode text)).map .line ++ [.pause, .close] := by
  have reads := (Reads.initial text).ondatas decodes cut filled
  exact reads.onend

/-- A CR at the end of a buffer, a character that is cut behind it, and no ending at the end -/
theorem lines_of_six_chunks :
    ([[0x61, 0x0D], [0x0A, 0x62, 0x0D], [0xC3], [0xA9, 0x0D], [0x0A, 0x0D], [0x63]].foldl
        (Interface.ondata StringDecoder.utf8ToString) Interface.new).onend.events =
      [.line [0x61], .line [0x62], .line [0xE9], .line [], .line [0x63], .pause, .close] := by
  have lines := lines_of_chunks StringDecoder.utf8ToString_utf8Encode
    ['a', '\r', '\n', 'b', '\r', 'é', '\r', '\n', '\r', 'c']
    [[0x61, 0x0D], [0x0A, 0x62, 0x0D], [0xC3], [0xA9, 0x0D], [0x0A, 0x0D], [0x63]] (by decide)
    (by decide)
  exact lines

end IoJs.Readline
