import IoJs.Http.StringPtr
import IoJs.Http.Common

/-!
# A parser and the buffers it is given

Here the fields, the values, the url and the status message of a `Parser` are `StringPtr`s.
`Execute` parses one buffer and saves what is left in it; between two calls nothing points into a
buffer that is gone. What the parser makes of its buffers is what it would make of the bytes
themselves.
-/

namespace IoJs.Http

open List Option
open Function (update)

/-- A callback of `http_parser`, with the places that it reports. -/
inductive RawCallback where
  | onMessageBegin
  | onUrl (str length : Nat)
  | onStatus (str length : Nat)
  | onHeaderField (str length : Nat)
  | onHeaderValue (str length : Nat)
  | onHeadersComplete (head : Head)
  | onBody (str length : Nat)
  | onMessageComplete

/-- What a callback reports, if it is in the buffer. -/
def RawCallback.read (b : Buffer) : RawCallback → Option Callback
  | .onMessageBegin => some .onMessageBegin
  | .onUrl str length => (b.read str length).map .onUrl
  | .onStatus str length => (b.read str length).map .onStatus
  | .onHeaderField str length => (b.read str length).map .onHeaderField
  | .onHeaderValue str length => (b.read str length).map .onHeaderValue
  | .onHeadersComplete head => some (.onHeadersComplete head)
  | .onBody str length => (b.read str length).map .onBody
  | .onMessageComplete => some .onMessageComplete

structure RawParser where
  type : ParserType
  fields : Nat → StringPtr
  values : Nat → StringPtr
  url : StringPtr
  statusMessage : StringPtr
  numFields : Nat
  numValues : Nat
  haveFlushed : Bool

namespace RawParser

def init (type : ParserType) (r : RawParser) : RawParser :=
  { r with
    type
    url := .reset
    statusMessage := .reset
    numFields := 0
    numValues := 0
    haveFlushed := false }

/-- The constructor -/
def new (type : ParserType) : RawParser :=
  init type
    { type
      fields := fun _ => .reset
      values := fun _ => .reset
      url := .reset
      statusMessage := .reset
      numFields := 0
      numValues := 0
      haveFlushed := false }

/-! The functions have no result if a `CHECK` fails or memory is read that is not there. -/

def createHeaders (b : Buffer) (r : RawParser) : Option (List Bytes) := do
  let lines ← (List.range r.numValues).mapM fun i => do
    let field ← (r.fields i).toString b
    let value ← (r.values i).toString b
    some [field, value]
  some lines.flatten

def flush (b : Buffer) (r : RawParser) : Option (RawParser × List Call) := do
  let headers ← r.createHeaders b
  let url ← r.url.toString b
  some ({ r with url := .reset, haveFlushed := true }, [.kOnHeaders headers url])

def onMessageBegin (r : RawParser) : RawParser :=
  { r with numFields := 0, numValues := 0, url := .reset, statusMessage := .reset }

/-- The start of a new field name -/
def newField (b : Buffer) (r : RawParser) : Option (RawParser × List Call) := do
  let r := { r with numFields := r.numFields + 1 }
  let (r, calls) ←
    -- ran out of space
    if r.numFields = Parser.arraySize then do
      let (r, calls) ← r.flush b
      some ({ r with numFields := 1, numValues := 0 }, calls)
    else some (r, [])
  some ({ r with fields := update r.fields (r.numFields - 1) .reset }, calls)

/-- The slot is that of the field that is under way, or a new one. -/
def startField (b : Buffer) (r : RawParser) : Option (RawParser × List Call) :=
  if r.numFields = r.numValues then r.newField b else some (r, [])

def onHeaderField (b : Buffer) (str length : Nat) (r : RawParser) :
    Option (RawParser × List Call) := do
  let (r, calls) ← r.startField b
  if r.numFields < Parser.arraySize ∧ r.numFields = r.numValues + 1 then
    let i := r.numFields - 1
    let field ← (r.fields i).update b str length
    some ({ r with fields := update r.fields i field }, calls)
  else none

/-- The start of a new header value -/
def newValue (r : RawParser) : RawParser :=
  let r := { r with numValues := r.numValues + 1 }
  { r with values := update r.values (r.numValues - 1) .reset }

def onHeaderValue (b : Buffer) (str length : Nat) (r : RawParser) :
    Option (RawParser × List Call) := do
  let r := if r.numValues ≠ r.numFields then r.newValue else r
  if r.numValues < Parser.arraySize ∧ r.numValues = r.numFields ∧ r.numValues ≠ 0 then
    let i := r.numValues - 1
    let value ← (r.values i).update b str length
    some ({ r with values := update r.values i value }, [])
  else none

def onHeadersComplete (b : Buffer) (head : Head) (r : RawParser) :
    Option (RawParser × List Call) := do
  let (r, calls, headers, url) ←
    if r.haveFlushed then do
      -- slow case, flush remaining headers
      let (r, calls) ← r.flush b
      some (r, calls, none, none)
    else do
      -- fast case, pass headers and URL
      let headers ← r.createHeaders b
      let url ← r.url.toString b
      some (r, [], some headers, if r.type = .request then some url else none)
  let statusMessage ← r.statusMessage.toString b
  let args : HeadersComplete :=
    { versionMajor := head.httpMajor
      versionMinor := head.httpMinor
      headers
      method := if r.type = .request then some head.method else none
      url
      statusCode := if r.type = .response then some head.statusCode else none
      statusMessage := if r.type = .response then some statusMessage else none
      upgrade := head.upgrade
      shouldKeepAlive := head.shouldKeepAlive }
  some ({ r with numFields := 0, numValues := 0 }, calls ++ [.kOnHeadersComplete args])

def onMessageComplete (b : Buffer) (r : RawParser) : Option (RawParser × List Call) := do
  -- flush trailing HTTP headers
  let (r, calls) ← if r.numFields ≠ 0 then r.flush b else some (r, [])
  some (r, calls ++ [.kOnMessageComplete])

def callback (b : Buffer) (r : RawParser) : RawCallback → Option (RawParser × List Call)
  | .onMessageBegin => some (r.onMessageBegin, [])
  | .onUrl str length => do
      let url ← r.url.update b str length
      some ({ r with url }, [])
  | .onStatus str length => do
      let statusMessage ← r.statusMessage.update b str length
      some ({ r with statusMessage }, [])
  | .onHeaderField str length => r.onHeaderField b str length
  | .onHeaderValue str length => r.onHeaderValue b str length
  | .onHeadersComplete head => r.onHeadersComplete b head
  | .onBody str length => do
      let data ← b.read str length
      some (r, [.kOnBody data])
  | .onMessageComplete => r.onMessageComplete b

/-- One loop of `Save` -/
def saveEach (b : Buffer) (strings : Nat → StringPtr) : Nat → Option (Nat → StringPtr)
  | 0 => some strings
  | n + 1 => do
      let strings ← saveEach b strings n
      let saved ← (strings n).save b
      some (update strings n saved)

def save (b : Buffer) (r : RawParser) : Option RawParser := do
  let url ← r.url.save b
  let statusMessage ← r.statusMessage.save b
  let fields ← saveEach b r.fields r.numFields
  let values ← saveEach b r.values r.numValues
  some { r with url, statusMessage, fields, values }

end RawParser

/-! ## What a parser stands for -/

/-- The strings in use hold the bytes of a parser of bytes. -/
structure RawParser.Stands (b : Buffer) (r : RawParser) (p : Parser) : Prop where
  type : r.type = p.type
  numFields : r.numFields = p.numFields
  numValues : r.numValues = p.numValues
  haveFlushed : r.haveFlushed = p.haveFlushed
  url : r.url.bytes b = some p.url
  statusMessage : r.statusMessage.bytes b = some p.statusMessage
  values_le : p.numValues ≤ p.numFields
  fields : ∀ i < p.numFields, (r.fields i).bytes b = some (p.fields i)
  values : ∀ i < p.numValues, (r.values i).bytes b = some (p.values i)

/-- Whatever buffer comes next. -/
def RawParser.Saved (r : RawParser) (p : Parser) : Prop := ∀ b, RawParser.Stands b r p

namespace RawParser

theorem saved_new (type : ParserType) : RawParser.Saved (.new type) (.new type) := by
  intro b
  refine ⟨rfl, rfl, rfl, rfl, rfl, rfl, Nat.le_refl 0, ?_, ?_⟩
  · intro i small
    cases small
  intro i small
  cases small

theorem bytes_update {b : Buffer} {strings : Nat → StringPtr} {contents : Nat → Bytes} {n j : Nat}
    (others : ∀ i < n, i ≠ j → (strings i).bytes b = some (contents i)) {s : StringPtr}
    {held : Bytes} (holds : s.bytes b = some held) :
    ∀ i < n, (update strings j s i).bytes b = some (update contents j held i) := by
  intro i small
  by_cases here : i = j
  · simp [here, holds]
  · simp [Function.update_of_ne here, others i small here]

theorem mapM_eq_some_map {α β : Type} {f : α → Option β} {g : α → β} :
    ∀ {l : List α}, (∀ x ∈ l, f x = some (g x)) → l.mapM f = some (l.map g)
  | [], _ => rfl
  | x :: l, all => by
      have rest : l.mapM f = some (l.map g) :=
        mapM_eq_some_map fun y member => all y (mem_cons_of_mem x member)
      rw [mapM_cons, all x mem_cons_self, rest]
      rfl

section Stands

variable {b : Buffer} {r : RawParser} {p : Parser}

theorem Stands.createHeaders (stands : Stands b r p) :
    r.createHeaders b = some p.createHeaders := by
  have lines : (List.range p.numValues).mapM (fun i => do
        let field ← (r.fields i).toString b
        let value ← (r.values i).toString b
        some [field, value])
      = some ((List.range p.numValues).map fun i => [p.fields i, p.values i]) := by
    apply mapM_eq_some_map
    intro i member
    have small := mem_range.mp member
    have field := StringPtr.toString_of_bytes
      (stands.fields i (Nat.lt_of_lt_of_le small stands.values_le))
    have value := StringPtr.toString_of_bytes (stands.values i small)
    rw [field, value]
    rfl
  rw [RawParser.createHeaders, stands.numValues, lines, Parser.createHeaders, flatMap_def]
  rfl

theorem Stands.flush (stands : Stands b r p) :
    ∃ r', r.flush b = some (r', p.flush.2) ∧ Stands b r' p.flush.1 := by
  refine ⟨{ r with url := .reset, haveFlushed := true }, ?_, ?_⟩
  · rw [RawParser.flush, stands.createHeaders, StringPtr.toString_of_bytes stands.url]
    rfl
  · exact { stands with haveFlushed := rfl, url := rfl }

theorem Stands.newField (stands : Stands b r p) :
    ∃ r', r.newField b = some (r', p.newField.2) ∧ Stands b r' p.newField.1 := by
  have count : r.numFields + 1 = p.numFields + 1 := congrArg (· + 1) stands.numFields
  -- the counter is ahead of the arrays when they are flushed
  by_cases full : p.numFields + 1 = Parser.arraySize
  · have headers : ({ r with numFields := r.numFields + 1 } : RawParser).createHeaders b
        = some p.createHeaders := stands.createHeaders
    have url := StringPtr.toString_of_bytes stands.url
    refine ⟨{ r with
      url := .reset, haveFlushed := true, numFields := 1, numValues := 0
      fields := update r.fields 0 .reset }, ?_, ?_⟩
    · simp only [RawParser.newField, Parser.newField, count, full, if_true, RawParser.flush]
      rw [count, full] at headers
      rw [headers, url]
      rfl
    simp only [Parser.newField, full, if_true, Parser.flush]
    refine ⟨stands.type, rfl, rfl, rfl, rfl, stands.statusMessage, Nat.zero_le 1, ?_, ?_⟩
    · apply bytes_update _ rfl
      intro i small other
      exact absurd (Nat.lt_one_iff.mp small) other
    intro i small
    cases small
  have full' : ¬ r.numFields + 1 = Parser.arraySize := count ▸ full
  refine ⟨{ r with
    numFields := r.numFields + 1
    fields := update r.fields r.numFields .reset }, ?_, ?_⟩
  · simp [RawParser.newField, Parser.newField, full, full']
  simp only [Parser.newField, if_neg full]
  refine ⟨stands.type, count, stands.numValues, stands.haveFlushed, stands.url,
    stands.statusMessage, Nat.le_succ_of_le stands.values_le, ?_, stands.values⟩
  rw [stands.numFields]
  apply bytes_update _ rfl
  intro i small other
  exact stands.fields i (Nat.lt_of_le_of_ne (Nat.le_of_lt_succ small) other)

variable {str length : Nat} {data : Bytes} {p' : Parser} {calls : List Call}

section

variable (stands : Stands b r p)
include stands

theorem Stands.onHeaderField (read : b.read str length = some data)
    (done : p.onHeaderField data = some (p', calls)) :
    ∃ r', r.onHeaderField b str length = some (r', calls) ∧ Stands b r' p' := by
  obtain ⟨r₁, p₁, calls₁, stands₁, eq, eq'⟩ : ∃ r₁ p₁ calls₁, Stands b r₁ p₁ ∧
      r.startField b = some (r₁, calls₁) ∧
      (if p.numFields = p.numValues then p.newField else (p, [])) = (p₁, calls₁) := by
    by_cases new : p.numFields = p.numValues
    · have new' : r.numFields = r.numValues := by rw [stands.numFields, stands.numValues, new]
      obtain ⟨r₁, eq, stands₁⟩ := stands.newField
      exact ⟨r₁, p.newField.1, p.newField.2, stands₁, (if_pos new').trans eq, if_pos new⟩
    have new' : ¬ r.numFields = r.numValues := by rwa [stands.numFields, stands.numValues]
    exact ⟨r, p, [], stands, if_neg new', if_neg new⟩
  rw [Parser.onHeaderField, eq'] at done
  dsimp only at done
  split_ifs at done with check
  obtain ⟨rfl, rfl⟩ := Prod.mk.inj (some.inj done)
  have check' : r₁.numFields < Parser.arraySize ∧ r₁.numFields = r₁.numValues + 1 := by
    rwa [stands₁.numFields, stands₁.numValues]
  have last := stands₁.fields (p₁.numFields - 1) (by omega)
  obtain ⟨field, updated, holds⟩ := StringPtr.update_bytes last read
  refine ⟨{ r₁ with fields := update r₁.fields (p₁.numFields - 1) field }, ?_, ?_⟩
  · rw [RawParser.onHeaderField, eq]
    simp only [bind_eq_bind, bind_some, if_pos check']
    rw [stands₁.numFields, updated]
    rfl
  refine { stands₁ with fields := ?_ }
  exact bytes_update (fun i small _ => stands₁.fields i small) holds

theorem Stands.onHeaderValue (read : b.read str length = some data)
    (done : p.onHeaderValue data = some (p', calls)) :
    ∃ r', r.onHeaderValue b str length = some (r', calls) ∧ Stands b r' p' := by
  obtain ⟨r₁, p₁, stands₁, eq, eq'⟩ : ∃ r₁ p₁, Stands b r₁ p₁ ∧
      (if r.numValues ≠ r.numFields then r.newValue else r) = r₁ ∧
      (if p.numValues ≠ p.numFields then p.newValue else p) = p₁ := by
    by_cases new : p.numValues ≠ p.numFields
    · have new' : r.numValues ≠ r.numFields := by rwa [stands.numFields, stands.numValues]
      have le := stands.values_le
      refine ⟨r.newValue, p.newValue, ?_, if_pos new', if_pos new⟩
      refine ⟨stands.type, stands.numFields, congrArg (· + 1) stands.numValues,
        stands.haveFlushed, stands.url, stands.statusMessage, ?_, stands.fields, ?_⟩
      · simp only [Parser.newValue]
        omega
      simp only [RawParser.newValue, Parser.newValue, Nat.add_sub_cancel, stands.numValues]
      apply bytes_update _ rfl
      intro i small other
      exact stands.values i (by omega)
    have new' : ¬ r.numValues ≠ r.numFields := by rwa [stands.numFields, stands.numValues]
    exact ⟨r, p, stands, if_neg new', if_neg new⟩
  rw [Parser.onHeaderValue, eq'] at done
  split_ifs at done with check
  obtain ⟨rfl, rfl⟩ := Prod.mk.inj (some.inj done)
  have check' : r₁.numValues < Parser.arraySize ∧ r₁.numValues = r₁.numFields ∧
      r₁.numValues ≠ 0 := by
    rwa [stands₁.numFields, stands₁.numValues]
  have last := stands₁.values (p₁.numValues - 1) (by omega)
  obtain ⟨value, updated, holds⟩ := StringPtr.update_bytes last read
  refine ⟨{ r₁ with values := update r₁.values (p₁.numValues - 1) value }, ?_, ?_⟩
  · rw [RawParser.onHeaderValue, eq]
    simp only [bind_eq_bind, if_pos check']
    rw [stands₁.numValues, updated]
    rfl
  refine { stands₁ with values := ?_ }
  exact bytes_update (fun i small _ => stands₁.values i small) holds

theorem Stands.onHeadersComplete (head : Head) :
    ∃ r', r.onHeadersComplete b head = some (r', (p.onHeadersComplete head).2) ∧
      Stands b r' (p.onHeadersComplete head).1 := by
  have status := StringPtr.toString_of_bytes stands.statusMessage
  have url := StringPtr.toString_of_bytes stands.url
  by_cases flushed : p.haveFlushed = true
  · have flushed' : r.haveFlushed = true := stands.haveFlushed.trans flushed
    refine ⟨{ r with url := .reset, haveFlushed := true, numFields := 0, numValues := 0 }, ?_, ?_⟩
    · simp [RawParser.onHeadersComplete, RawParser.flush, Parser.onHeadersComplete, Parser.flush,
        flushed, flushed', stands.createHeaders, url, stands.type, status]
    simp only [Parser.onHeadersComplete, if_pos flushed, Parser.flush]
    refine ⟨stands.type, rfl, rfl, rfl, rfl, stands.statusMessage, Nat.le_refl 0, ?_, ?_⟩
    · simp
    · simp
  have flushed' : ¬ r.haveFlushed = true := stands.haveFlushed ▸ flushed
  refine ⟨{ r with numFields := 0, numValues := 0 }, ?_, ?_⟩
  · simp [RawParser.onHeadersComplete, Parser.onHeadersComplete, flushed, flushed',
      stands.createHeaders, url, stands.type, status]
  simp only [Parser.onHeadersComplete, if_neg flushed]
  refine ⟨stands.type, rfl, rfl, stands.haveFlushed, stands.url, stands.statusMessage,
    Nat.le_refl 0, ?_, ?_⟩
  · simp
  · simp

theorem Stands.onMessageComplete : ∃ r', r.onMessageComplete b = some (r', p.onMessageComplete.2) ∧
    Stands b r' p.onMessageComplete.1 := by
  by_cases pending : p.numFields ≠ 0
  · have pending' : r.numFields ≠ 0 := stands.numFields ▸ pending
    obtain ⟨r', flushed, stands'⟩ := stands.flush
    refine ⟨r', ?_, ?_⟩
    · simp [RawParser.onMessageComplete, Parser.onMessageComplete, pending, pending', flushed]
    · simpa only [Parser.onMessageComplete, if_pos pending] using stands'
  have pending' : ¬ r.numFields ≠ 0 := stands.numFields ▸ pending
  refine ⟨r, ?_, ?_⟩
  · simp [RawParser.onMessageComplete, Parser.onMessageComplete, pending, pending']
  · simpa only [Parser.onMessageComplete, if_neg pending] using stands

/-- Each callback does on pointers what it does on strings. -/
theorem Stands.callback {cb : RawCallback} {told : Callback}
    (read : cb.read b = some told) (done : p.callback told = some (p', calls)) :
    ∃ r', r.callback b cb = some (r', calls) ∧ Stands b r' p' := by
  cases cb with
  | onMessageBegin =>
    cases read
    cases done
    refine ⟨_, rfl, ⟨stands.type, rfl, rfl, stands.haveFlushed, rfl, rfl, Nat.le_refl 0, ?_, ?_⟩⟩
    · intro i small
      cases small
    intro i small
    cases small
  | onUrl =>
    obtain ⟨data, there, rfl⟩ := map_eq_some_iff.mp read
    cases done
    obtain ⟨url, updated, holds⟩ := StringPtr.update_bytes stands.url there
    refine ⟨{ r with url }, ?_, { stands with url := holds }⟩
    rw [RawParser.callback, updated]
    rfl
  | onStatus =>
    obtain ⟨data, there, rfl⟩ := map_eq_some_iff.mp read
    cases done
    obtain ⟨statusMessage, updated, holds⟩ := StringPtr.update_bytes stands.statusMessage there
    refine ⟨{ r with statusMessage }, ?_, { stands with statusMessage := holds }⟩
    rw [RawParser.callback, updated]
    rfl
  | onHeaderField =>
    obtain ⟨data, there, rfl⟩ := map_eq_some_iff.mp read
    exact stands.onHeaderField there done
  | onHeaderValue =>
    obtain ⟨data, there, rfl⟩ := map_eq_some_iff.mp read
    exact stands.onHeaderValue there done
  | onHeadersComplete head =>
    cases read
    cases done
    exact stands.onHeadersComplete head
  | onBody =>
    obtain ⟨data, there, rfl⟩ := map_eq_some_iff.mp read
    cases done
    refine ⟨r, ?_, stands⟩
    rw [RawParser.callback, there]
    rfl
  | onMessageComplete =>
    cases read
    cases done
    exact stands.onMessageComplete

end

theorem saveEach_bytes {strings : Nat → StringPtr} {contents : Nat → Bytes} (n : Nat)
    (hold : ∀ i < n, (strings i).bytes b = some (contents i)) :
    ∃ saved, saveEach b strings n = some saved ∧ (∀ i, n ≤ i → saved i = strings i) ∧
      ∀ i < n, ∀ b', (saved i).bytes b' = some (contents i) := by
  induction n with
  | zero =>
    refine ⟨strings, rfl, fun _ _ => rfl, ?_⟩
    intro i small
    cases small
  | succ n ih =>
    obtain ⟨saved, done, later, earlier⟩ := ih fun i small => hold i (Nat.lt_succ_of_lt small)
    obtain ⟨s, saves, holds⟩ := StringPtr.save_bytes (hold n (Nat.lt_succ_self n))
    refine ⟨update saved n s, ?_, ?_, ?_⟩
    · simp [saveEach, done, later, saves]
    · intro i large
      rw [Function.update_of_ne (by omega), later i (by omega)]
    intro i small
    by_cases here : i = n
    · rw [here, Function.update_self]
      exact holds
    rw [Function.update_of_ne here]
    exact earlier i (by omega)

theorem Stands.save (stands : Stands b r p) : ∃ r', r.save b = some r' ∧ Saved r' p := by
  obtain ⟨url, urlSaves, urlHolds⟩ := StringPtr.save_bytes stands.url
  obtain ⟨status, statusSaves, statusHolds⟩ := StringPtr.save_bytes stands.statusMessage
  obtain ⟨fields, fieldsSave, -, fieldsHold⟩ := saveEach_bytes p.numFields stands.fields
  obtain ⟨values, valuesSave, -, valuesHold⟩ := saveEach_bytes p.numValues stands.values
  refine ⟨{ r with url, statusMessage := status, fields, values }, ?_, ?_⟩
  · rw [RawParser.save, urlSaves, statusSaves, stands.numFields, stands.numValues, fieldsSave,
      valuesSave]
    rfl
  intro b'
  exact
    { stands with
      url := urlHolds b'
      statusMessage := statusHolds b'
      fields := fun i small => fieldsHold i small b'
      values := fun i small => valuesHold i small b' }

end Stands

end RawParser

/-! ## Connections -/

/-- A parser in use, and what it has delivered. -/
structure RawConnection where
  parser : RawParser
  fields : Fields
  delivered : List Event

/-- Some input, and what `http_parser` reports of it. -/
structure Segment where
  buffer : Buffer
  callbacks : List RawCallback

/-- What is reported of some input. -/
def Segment.read (s : Segment) : Option (List Callback) :=
  s.callbacks.mapM (RawCallback.read s.buffer)

namespace RawConnection

/-- A connection with a fresh parser -/
def new (type : ParserType) (maxHeaderPairs : Int) : RawConnection :=
  { parser := (RawParser.new .request).init type
    fields := { headers := [], url := [], maxHeaderPairs, incoming := false }
    delivered := [] }

def callback (dumped : List Event → Bool) (b : Buffer) (c : RawConnection) (cb : RawCallback) :
    Option RawConnection :=
  (c.parser.callback b cb).map fun (parser, calls) =>
    let (fields, delivered) := calls.foldl (handle dumped) (c.fields, c.delivered)
    { parser, fields, delivered }

def execute (dumped : List Event → Bool) (c : RawConnection) (s : Segment) :
    Option RawConnection := do
  let c ← s.callbacks.foldlM (callback dumped s.buffer) c
  let parser ← c.parser.save s.buffer
  some { c with parser }

/-- The connection serves as one that is given bytes. -/
structure Serves (b : Buffer) (raw : RawConnection) (c : Connection) : Prop where
  parser : RawParser.Stands b raw.parser c.parser.parser
  fields : raw.fields = c.parser.fields
  delivered : raw.delivered = c.delivered

section Serves

variable {dumped : List Event → Bool} {b : Buffer} {raw : RawConnection} {c c' : Connection}

theorem serves_new (type : ParserType) (maxHeaderPairs : Int) (b : Buffer) :
    Serves b (.new type maxHeaderPairs) (HTTPParser.new.connect type maxHeaderPairs) :=
  ⟨RawParser.saved_new type b, rfl, rfl⟩

theorem Serves.callback (serves : Serves b raw c) {cb : RawCallback} {told : Callback}
    (read : cb.read b = some told) (done : c.callback dumped told = some c') :
    ∃ raw', raw.callback dumped b cb = some raw' ∧ Serves b raw' c' := by
  obtain ⟨⟨p, calls⟩, parsed, rfl⟩ := map_eq_some_iff.mp done
  obtain ⟨r, parsed', stands⟩ := serves.parser.callback read parsed
  have eq : raw.callback dumped b cb = some
      { parser := r
        fields := (calls.foldl (handle dumped) (c.parser.fields, c.delivered)).1
        delivered := (calls.foldl (handle dumped) (c.parser.fields, c.delivered)).2 } := by
    rw [RawConnection.callback, parsed', serves.fields, serves.delivered]
    rfl
  exact ⟨_, eq, stands, rfl, rfl⟩

theorem Serves.callbacks (serves : Serves b raw c) {cbs : List RawCallback} {told : List Callback}
    (read : cbs.mapM (RawCallback.read b) = some told)
    (done : told.foldlM (Connection.callback dumped) c = some c') :
    ∃ raw', cbs.foldlM (RawConnection.callback dumped b) raw = some raw' ∧ Serves b raw' c' := by
  induction cbs generalizing raw c told with
  | nil =>
    cases read
    cases done
    exact ⟨raw, rfl, serves⟩
  | cons cb cbs ih =>
    simp only [mapM_cons, bind_eq_bind, bind_eq_some_iff] at read
    obtain ⟨first, readFirst, rest, readRest, eq⟩ := read
    cases eq
    obtain ⟨c₁, step, done⟩ := bind_eq_some_iff.mp done
    obtain ⟨raw₁, step', serves₁⟩ := serves.callback readFirst step
    obtain ⟨raw', steps, serves'⟩ := ih serves₁ readRest done
    refine ⟨raw', ?_, serves'⟩
    simpa [step'] using steps

theorem executes (serves : ∀ b, Serves b raw c) {segments : List Segment}
    {told : List (List Callback)} (read : segments.mapM Segment.read = some told)
    (done : told.flatten.foldlM (Connection.callback dumped) c = some c') :
    ∃ raw', segments.foldlM (RawConnection.execute dumped) raw = some raw' ∧
      ∀ b, Serves b raw' c' := by
  induction segments generalizing raw c told with
  | nil =>
    cases read
    cases done
    exact ⟨raw, rfl, serves⟩
  | cons s segments ih =>
    simp only [mapM_cons, bind_eq_bind, bind_eq_some_iff] at read
    obtain ⟨first, readFirst, rest, readRest, eq⟩ := read
    cases eq
    rw [flatten_cons, foldlM_append] at done
    obtain ⟨c₁, step, done⟩ := bind_eq_some_iff.mp done
    obtain ⟨raw₁, steps, serves₁⟩ := (serves s.buffer).callbacks readFirst step
    obtain ⟨parser, saves, saved⟩ := serves₁.parser.save
    have serves₂ : ∀ b, Serves b { raw₁ with parser } c₁ := fun b =>
      ⟨saved b, serves₁.fields, serves₁.delivered⟩
    obtain ⟨raw', executed, serves'⟩ := ih serves₂ readRest done
    refine ⟨raw', ?_, serves'⟩
    rw [foldlM_cons, RawConnection.execute, steps]
    simpa [saves] using executed

end Serves

end RawConnection

end IoJs.Http
