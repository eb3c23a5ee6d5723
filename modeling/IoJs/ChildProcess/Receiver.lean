import IoJs.ChildProcess.Message
import IoJs.StringDecoder.Utf8

/-!
# The receiving end of a channel

`channel.onread` gets the bytes of the lines in pieces, cut anywhere, some of them with a handle. It
decodes them, and takes the lines that are complete from its buffer.
-/

namespace IoJs.ChildProcess

open IoJs.Buffer IoJs.RegExp IoJs.Stream IoJs.StringDecoder List

structure Receiver (H : Type) where
  decoder : StringDecoder
  jsonBuffer : JSString
  buffering : Bool
  -- the `recvHandle` of the call that has not returned
  call : Option (Option H)

/-- How a round of the loop ends -/
inductive Round (H : Type) where
  -- `handleMessage` is called.
  | message (message : Json) (handle : Option H) (r : Receiver H)
  -- `onread` returns.
  | done (r : Receiver H)
  -- `JSON.parse` throws.
  | throws

namespace Receiver

variable {H : Type}

/-- As `setupChannel` makes it -/
def new : Receiver H :=
  { decoder := StringDecoder.new "utf8", jsonBuffer := [], buffering := false, call := none }

/-- `onread`, up to its loop -/
def read (toString : ToString) (r : Receiver H) (pool : List UInt8) (recvHandle : Option H) :
    Receiver H :=
  let written := r.decoder.write toString pool
  { r with
    decoder := written.1
    jsonBuffer := r.jsonBuffer ++ written.2
    call := some recvHandle }

/-- One round, of a call with a handle -/
def next (json : JSON) (r : Receiver H) (recvHandle : Option H) : Round H :=
  match r.jsonBuffer.findIdx? (· = unit '\n') with
  | none => .done { r with buffering := r.jsonBuffer ≠ [], call := none }
  | some i =>
    match json.parse (r.jsonBuffer.take i) with
    | none => .throws
    | some message =>
      .message message
        (if message.cmd = some (js "NODE_HANDLE") then recvHandle else none)
        { r with jsonBuffer := r.jsonBuffer.drop (i + 1) }

end Receiver

/-! ## Lines -/

/-- The text of a message on the channel, with what is parsed -/
structure Line (json : JSON) where
  text : List Char
  value : Json
  plain : '\n' ∉ text
  parsed : json.parse (utf16Encode text) = some value

namespace Line

variable {json : JSON} {text part rest : List Char} {lines : List (Line json)}

def chars (line : Line json) : List Char := line.text ++ ['\n']

def bytes (line : Line json) : List UInt8 := utf8Encode line.chars

/-- The characters of some lines -/
def stream (lines : List (Line json)) : List Char := lines.flatMap chars

@[simp] theorem stream_nil : stream ([] : List (Line json)) = [] := rfl

@[simp] theorem stream_cons (line : Line json) (lines : List (Line json)) :
    stream (line :: lines) = line.chars ++ stream lines := rfl

@[simp] theorem stream_append (left right : List (Line json)) :
    stream (left ++ right) = stream left ++ stream right := flatMap_append

theorem lineFeed_not_mem (plain : '\n' ∉ text) : unit '\n' ∉ utf16Encode text := by
  intro mem
  obtain ⟨c, inText, mem⟩ := mem_flatMap.mp mem
  obtain rfl := eq_of_unit_mem (by decide) mem
  exact plain inText

theorem findIdx_eq_none (plain : '\n' ∉ text) :
    (utf16Encode text).findIdx? (· = unit '\n') = none := by
  rw [List.findIdx?_eq_none_iff]
  intro ch mem
  rw [decide_eq_false_iff_not]
  rintro rfl
  exact lineFeed_not_mem plain mem

theorem findIdx_append (plain : '\n' ∉ text) (rest : JSString) :
    (utf16Encode text ++ unit '\n' :: rest).findIdx? (· = unit '\n') =
      some (utf16Encode text).length := by
  rw [List.findIdx?_append, findIdx_eq_none plain, List.findIdx?_cons]
  simp

theorem exists_cons_of_plain (plain : '\n' ∉ part) (split : part ++ rest = stream lines) :
    lines = [] ∧ part = [] ∧ rest = [] ∨
      ∃ line later left, lines = line :: later ∧ line.text = part ++ left ∧
        rest = left ++ '\n' :: stream later := by
  cases lines with
  | nil => exact .inl ⟨rfl, append_eq_nil_iff.mp split⟩
  | cons line later =>
    right
    rw [stream_cons, chars, append_assoc] at split
    rcases append_eq_append_iff.mp split with ⟨left, text, rest⟩ | ⟨left, part_eq, end_⟩
    · exact ⟨line, later, left, rfl, text, rest⟩
    cases left with
    | nil => exact ⟨line, later, [], rfl, by rw [part_eq]; simp, end_.symm⟩
    | cons =>
      obtain ⟨rfl, -⟩ := List.cons.inj end_
      rw [part_eq] at plain
      exact absurd (mem_append_right _ mem_cons_self) plain

theorem exists_cons_of_mem (mem : '\n' ∈ part) (split : part ++ rest = stream lines) :
    ∃ line later part', lines = line :: later ∧ part = line.text ++ '\n' :: part' ∧
      part' ++ rest = stream later := by
  cases lines with
  | nil =>
    rw [(append_eq_nil_iff.mp split).1] at mem
    exact absurd mem not_mem_nil
  | cons line later =>
    rw [stream_cons, chars, append_assoc] at split
    rcases append_eq_append_iff.mp split with ⟨left, text, -⟩ | ⟨left, part_eq, end_⟩
    · have inText : '\n' ∈ line.text := by
        rw [text]
        exact mem_append_left left mem
      exact absurd inText line.plain
    cases left with
    | nil =>
      rw [append_nil] at part_eq
      rw [part_eq] at mem
      exact absurd mem line.plain
    | cons c part' =>
      obtain ⟨rfl, later_eq⟩ := List.cons.inj end_
      exact ⟨line, later, part', rfl, part_eq, later_eq.symm⟩

end Line

/-! ## What the receiver has got -/

/-- Of lines that have been written, the bytes `wire` are still to be read. -/
structure Receiving {json : JSON} {H : Type} (r : Receiver H) (wire : List UInt8)
    (lines : List (Line json)) : Prop where
  buffered : ∃ part pending rest, r.jsonBuffer = utf16Encode part ∧ Awaits r.decoder pending rest ∧
    pending ++ wire = utf8Encode rest ∧ part ++ rest = Line.stream lines ∧
    (r.call = none → '\n' ∉ part)

namespace Receiving

variable {json : JSON} {H : Type} {r : Receiver H} {wire : List UInt8} {lines : List (Line json)}

theorem new : Receiving (.new : Receiver H) [] ([] : List (Line json)) :=
  ⟨[], [], [], rfl, Awaits.new [], rfl, rfl, fun _ => not_mem_nil⟩

theorem append (receiving : Receiving r wire lines) (line : Line json) :
    Receiving r (wire ++ line.bytes) (lines ++ [line]) := by
  obtain ⟨part, pending, rest, buffer, awaits, left, split, idle⟩ := receiving.buffered
  refine ⟨part, pending, rest ++ line.chars, buffer, awaits.append _, ?_, ?_, idle⟩
  · rw [← append_assoc, left, utf8Encode_append, Line.bytes]
  rw [← append_assoc, split, Line.stream_append, Line.stream_cons, Line.stream_nil, append_nil]

theorem read {toString : ToString}
    (decodes : ∀ text, toString "utf8" (utf8Encode text) = utf16Encode text) {pool : List UInt8}
    (receiving : Receiving r (pool ++ wire) lines) (recvHandle : Option H) :
    Receiving (r.read toString pool recvHandle) wire lines := by
  obtain ⟨part, pending, rest, buffer, awaits, left, split, -⟩ := receiving.buffered
  obtain ⟨now, rest', pending', rfl, left', text, awaits'⟩ := awaits.write decodes left
  refine ⟨part ++ now, pending', rest', ?_, awaits', left', ?_, nofun⟩
  · rw [Receiver.read, text, buffer, utf16Encode_append]
  · rw [append_assoc, split]

/-- The next line is a message, with the handle if it is to have one, or there is none. -/
theorem next (receiving : Receiving r wire lines) (recvHandle : Option H) :
    (∃ line later r', lines = line :: later ∧ r.next json recvHandle = .message line.value
        (if line.value.cmd = some (js "NODE_HANDLE") then recvHandle else none) r' ∧
      Receiving r' wire later ∧ r'.call = r.call) ∨
    ∃ r', r.next json recvHandle = .done r' ∧ Receiving r' wire lines ∧ r'.call = none := by
  obtain ⟨part, pending, rest, buffer, awaits, left, split, idle⟩ := receiving.buffered
  by_cases mem : '\n' ∈ part
  · obtain ⟨line, later, part', rfl, rfl, split'⟩ := Line.exists_cons_of_mem mem split
    left
    have cut : r.jsonBuffer = utf16Encode line.text ++ unit '\n' :: utf16Encode part' := by
      rw [buffer, utf16Encode_append]
      rfl
    have drop : (utf16Encode line.text ++ unit '\n' :: utf16Encode part').drop
        ((utf16Encode line.text).length + 1) = utf16Encode part' := by
      rw [← drop_drop, drop_left]
      rfl
    refine ⟨line, later, { r with jsonBuffer := utf16Encode part' }, rfl, ?_,
      ⟨part', pending, rest, rfl, awaits, left, split', ?_⟩, rfl⟩
    · rw [Receiver.next, cut, Line.findIdx_append line.plain]
      dsimp only
      rw [take_left, line.parsed, drop]
    intro none
    exact absurd mem (idle none)
  right
  refine ⟨{ r with buffering := r.jsonBuffer ≠ [], call := none }, ?_,
    ⟨part, pending, rest, buffer, awaits, left, split, fun _ => mem⟩, rfl⟩
  have none : r.jsonBuffer.findIdx? (· = unit '\n') = none := by
    rw [buffer]
    exact Line.findIdx_eq_none mem
  rw [Receiver.next, none]

theorem eq_nil (receiving : Receiving r [] lines) (idle : r.call = none) : lines = [] := by
  obtain ⟨part, pending, rest, -, awaits, left, split, plain⟩ := receiving.buffered
  rw [append_nil] at left
  obtain rfl := awaits.eq_nil left
  rcases Line.exists_cons_of_plain (plain idle) split with ⟨empty, -⟩ | ⟨line, later,
    rest, -, -, none⟩
  · exact empty
  · exact absurd none (append_ne_nil_of_right_ne_nil rest (cons_ne_nil _ _)).symm

end Receiving

end IoJs.ChildProcess
