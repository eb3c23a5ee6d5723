import IoJs.Http.Execute

/-!
# The headers of a message

The headers of a message reach the JavaScript side in one call, or in batches of 31 when there are
more. The field and the value that are under way may be cut anywhere. However that goes, what is
delivered is the url and the headers, up to the limit.
-/

namespace IoJs.Http

open List
open Function (update)

/-! ## What is reported -/

/-- The first line of a message, less what `Head` has of it. -/
inductive StartLine where
  | request (url : Bytes)
  | response (statusMessage : Bytes)

/-- The header of a message. -/
structure Header where
  start : StartLine
  lines : List (Bytes × Bytes)
  head : Head

namespace StartLine

def type : StartLine → ParserType
  | .request _ => .request
  | .response _ => .response

def url : StartLine → Bytes
  | .request url => url
  | .response _ => []

def statusMessage : StartLine → Bytes
  | .request _ => []
  | .response statusMessage => statusMessage

/-- It is reported in some pieces, or in none if it is empty. -/
inductive Reported : StartLine → List Callback → Prop where
  | request (pieces : List Bytes) : Reported (.request pieces.flatten) (pieces.map .onUrl)
  | response (pieces : List Bytes) : Reported (.response pieces.flatten) (pieces.map .onStatus)

end StartLine

/-- Fields and values are reported alternately, each in one piece or in several. -/
inductive LinesReported : List (Bytes × Bytes) → List Callback → Prop where
  | nil : LinesReported [] []
  | cons {lines : List (Bytes × Bytes)} {callbacks : List Callback} (first second : Bytes)
      (firsts seconds : List Bytes) (rest : LinesReported lines callbacks) :
      LinesReported (((first :: firsts).flatten, (second :: seconds).flatten) :: lines)
        ((first :: firsts).map .onHeaderField ++ (second :: seconds).map .onHeaderValue ++
          callbacks)

/-- The header of a message is reported. -/
inductive Header.Reported (header : Header) : List Callback → Prop where
  | mk {start lines : List Callback} (starts : header.start.Reported start)
      (follow : LinesReported header.lines lines) :
      Reported header (.onMessageBegin :: start ++ lines ++ [.onHeadersComplete header.head])

/-! ## What is delivered -/

/-- Fields and values in turn -/
def flat (lines : List (Bytes × Bytes)) : List Bytes := lines.flatMap fun line => [line.1, line.2]

/-- `maxHeaderPairs`, as it is set from a number, converted to 32 bits, or by default. -/
def maxHeaderPairs : Option (BitVec 32) → Int
  | some maxHeadersCount => (maxHeadersCount <<< 1).toInt
  | none => 2000

/-- The headers up to the limit. -/
def limited (limit : Int) (headers : List Bytes) : List Bytes :=
  if limit ≤ 0 then headers else headers.take (min headers.length limit.toNat)

/-- The message that a header is to make. -/
def Header.message (limit : Int) (header : Header) : Message :=
  { httpVersionMajor := header.head.httpMajor
    httpVersionMinor := header.head.httpMinor
    url := header.start.url
    rawHeaders := limited limit (flat header.lines)
    method := if header.start.type = .request then some header.head.method else none
    statusCode := if header.start.type = .request then none else some header.head.statusCode
    statusMessage :=
      if header.start.type = .request then none else some header.start.statusMessage
    upgrade := header.head.upgrade
    shouldKeepAlive := header.head.shouldKeepAlive }

/-- The arguments that it is passed with. -/
def Header.args (header : Header) (headers : Option (List Bytes)) (url : Option Bytes) :
    HeadersComplete :=
  { versionMajor := header.head.httpMajor
    versionMinor := header.head.httpMinor
    headers
    method := if header.start.type = .request then some header.head.method else none
    url
    statusCode := if header.start.type = .response then some header.head.statusCode else none
    statusMessage :=
      if header.start.type = .response then some header.start.statusMessage else none
    upgrade := header.head.upgrade
    shouldKeepAlive := header.head.shouldKeepAlive }

/-! ## The limit -/

theorem flat_append (lines lines' : List (Bytes × Bytes)) :
    flat (lines ++ lines') = flat lines ++ flat lines' :=
  flatMap_append

theorem length_flat (lines : List (Bytes × Bytes)) : (flat lines).length = 2 * lines.length := by
  induction lines with
  | nil => rfl
  | cons line lines ih =>
    have step : flat (line :: lines) = line.1 :: line.2 :: flat lines := rfl
    rw [step, length_cons, length_cons, length_cons, ih]
    omega

theorem addHeaderLines_flat (lines : List (Bytes × Bytes)) (n : Nat) :
    addHeaderLines (flat lines) (2 * n) = (flat lines).take (2 * n) := by
  induction lines generalizing n with
  | nil => simp [flat, addHeaderLines]
  | cons line lines ih =>
    have step : flat (line :: lines) = line.1 :: line.2 :: flat lines := rfl
    cases n with
    | zero => rfl
    | succ n =>
      rw [step, addHeaderLines, if_neg (by omega), Nat.mul_succ, Nat.add_sub_cancel, ih]
      rfl

theorem two_dvd_maxHeaderPairs (count : Option (BitVec 32)) : 2 ∣ maxHeaderPairs count := by
  cases count with
  | none => decide
  | some =>
    rw [maxHeaderPairs, BitVec.toInt_shiftLeft, Nat.shiftLeft_eq, Int.bmod_def]
    split_ifs
    · omega
    · omega

theorem addHeaderLines_limited {limit : Int} (even : 2 ∣ limit) (lines : List (Bytes × Bytes)) :
    addHeaderLines (flat lines)
        (if limit > 0 then min (flat lines).length limit.toNat else (flat lines).length) =
      limited limit (flat lines) := by
  have length := length_flat lines
  by_cases positive : limit > 0
  · obtain ⟨half, eq⟩ : ∃ half, min (flat lines).length limit.toNat = 2 * half :=
      ⟨min lines.length (limit.toNat / 2), by omega⟩
    simp [positive, limited, eq, addHeaderLines_flat]
  rw [if_neg positive, limited, if_pos (by omega), length, addHeaderLines_flat,
    take_of_length_le (Nat.le_of_eq length)]

/-- What `parserOnHeaders` has collected of some lines: all, or enough of it. -/
inductive Collected (limit : Int) (all : List (Bytes × Bytes)) : List Bytes → Prop where
  | mk (got : List (Bytes × Bytes)) (begins : got <+: all)
      (enough : got = all ∨ 0 < limit ∧ limit ≤ (flat got).length) : Collected limit all (flat got)

section Collected

variable {limit : Int} {all : List (Bytes × Bytes)} {headers : List Bytes}

theorem Collected.whole (limit : Int) (all : List (Bytes × Bytes)) :
    Collected limit all (flat all) :=
  .mk all (prefix_refl all) (.inl rfl)

theorem Collected.append (collected : Collected limit all headers) (batch : List (Bytes × Bytes)) :
    Collected limit (all ++ batch)
      (if limit ≤ 0 ∨ (headers.length : Int) < limit then headers ++ flat batch else headers) := by
  cases collected with
  | mk got begins enough =>
    split_ifs with more
    · rcases enough with rfl | ⟨positive, enough⟩
      · rw [← flat_append]
        exact Collected.whole limit (got ++ batch)
      · exact absurd more (by omega)
    refine .mk got (begins.trans (prefix_append all batch)) (.inr ?_)
    omega

theorem Collected.added (collected : Collected limit all headers) (even : 2 ∣ limit) :
    addHeaderLines headers
        (if limit > 0 then min headers.length limit.toNat else headers.length) =
      limited limit (flat all) := by
  cases collected with
  | mk got begins enough =>
    rw [addHeaderLines_limited even]
    rcases enough with rfl | ⟨positive, enough⟩
    · rfl
    obtain ⟨rest, rfl⟩ := begins
    have few : min (flat got).length limit.toNat = limit.toNat := by omega
    have few' : min (flat (got ++ rest)).length limit.toNat = limit.toNat := by
      rw [flat_append, length_append]
      omega
    rw [limited, limited, if_neg (by omega), if_neg (by omega), few, few', flat_append,
      take_append_of_le_length (by omega)]

end Collected

/-! ## The arrays -/

namespace Parser

/-- The lines that are in the arrays. -/
def lines (p : Parser) : List (Bytes × Bytes) :=
  (List.range p.numValues).map fun i => (p.fields i, p.values i)

section Slots

variable {p : Parser} {data : Bytes}

theorem createHeaders_eq (p : Parser) : p.createHeaders = flat p.lines := by
  rw [createHeaders, flat, lines, flatMap_map]

theorem length_lines (p : Parser) : p.lines.length = p.numValues := by simp [lines]

theorem lines_fields_update {i : Nat} (unused : p.numValues ≤ i) (data : Bytes) :
    ({ p with fields := update p.fields i data } : Parser).lines = p.lines := by
  apply map_congr_left
  intro j member
  have small : j < p.numValues := mem_range.mp member
  dsimp only
  rw [Function.update_of_ne (by omega)]

theorem lines_values_update (n : Nat) (count : p.numValues = n + 1) (data : Bytes) :
    ({ p with values := update p.values n data } : Parser).lines =
      ({ p with numValues := n } : Parser).lines ++ [(p.fields n, data)] := by
  simp only [lines, count, range_succ, map_append, map_cons, map_nil, Function.update_self]
  congr 1
  apply map_congr_left
  intro j member
  have small : j < n := mem_range.mp member
  rw [Function.update_of_ne (by omega)]

theorem lines_succ (n : Nat) (count : p.numValues = n + 1) :
    p.lines = ({ p with numValues := n } : Parser).lines ++ [(p.fields n, p.values n)] := by
  simp only [lines, count, range_succ, map_append, map_cons, map_nil]

/-! What a callback does, case by case. -/

theorem onHeaderField_full (counts : p.numFields = p.numValues)
    (full : p.numFields + 1 = arraySize) (data : Bytes) :
    p.onHeaderField data = some
      ({ p with
        url := []
        haveFlushed := true
        numFields := 1
        numValues := 0
        fields := update p.fields 0 data },
      [.kOnHeaders (flat p.lines) p.url]) := by
  have headers : ({ p with numFields := p.numFields + 1 } : Parser).createHeaders = flat p.lines :=
    createHeaders_eq p
  rw [full] at headers
  simp only [onHeaderField, if_pos counts, newField, full, if_true, flush, headers]
  simp [arraySize]

theorem onHeaderField_new (counts : p.numFields = p.numValues)
    (space : p.numFields + 1 < arraySize) (data : Bytes) :
    p.onHeaderField data = some
      ({ p with
        numFields := p.numFields + 1
        fields := update p.fields p.numFields data }, []) := by
  have space' : ¬ p.numFields + 1 = arraySize := Nat.ne_of_lt space
  simp only [onHeaderField, if_pos counts, newField, if_neg space', Nat.add_sub_cancel]
  rw [if_pos ⟨space, by rw [counts]⟩]
  simp

theorem onHeaderField_more (counts : p.numFields = p.numValues + 1)
    (space : p.numFields < arraySize) (data : Bytes) :
    p.onHeaderField data = some
      ({ p with
        fields := update p.fields p.numValues (p.fields p.numValues ++ data) }, []) := by
  have under : ¬ p.numFields = p.numValues := by omega
  have slot : p.numFields - 1 = p.numValues := by omega
  simp only [onHeaderField, if_neg under, slot]
  rw [if_pos ⟨space, counts⟩]

theorem onHeaderValue_new (counts : p.numFields = p.numValues + 1)
    (space : p.numFields < arraySize) (data : Bytes) :
    p.onHeaderValue data = some
      ({ p with
        numValues := p.numValues + 1
        values := update p.values p.numValues data }, []) := by
  have under : p.numValues ≠ p.numFields := by omega
  simp only [onHeaderValue, if_pos under, newValue, Nat.add_sub_cancel]
  rw [if_pos ⟨by omega, counts.symm, by omega⟩]
  simp

theorem onHeaderValue_more (n : Nat) (count : p.numValues = n + 1)
    (counts : p.numFields = p.numValues) (space : p.numFields < arraySize) (data : Bytes) :
    p.onHeaderValue data = some
      ({ p with values := update p.values n (p.values n ++ data) }, []) := by
  have under : ¬ p.numValues ≠ p.numFields := by omega
  have slot : p.numValues - 1 = n := by omega
  simp only [onHeaderValue, if_neg under, slot]
  rw [if_pos ⟨by omega, counts.symm, by omega⟩]

end Slots

end Parser

/-! ## Batches -/

/-- What has become of the url and of the lines so far. -/
inductive Batches (limit : Int) (url : Bytes) (lines : List (Bytes × Bytes)) (p : Parser)
    (f : Fields) : Prop where
  | fast (haveFlushed : p.haveFlushed = false) (parserUrl : p.url = url) (fieldsUrl : f.url = [])
      (headers : f.headers = []) (held : p.lines = lines)
  | slow (flushed : List (Bytes × Bytes)) (haveFlushed : p.haveFlushed = true)
      (parserUrl : p.url = []) (fieldsUrl : f.url = url)
      (collected : Collected limit flushed f.headers) (held : flushed ++ p.lines = lines)
      (many : 31 ≤ flushed.length)

/-- A connection that is collecting headers: some lines, and perhaps a field. -/
structure Collecting (limit : Int) (start : StartLine) (lines : List (Bytes × Bytes))
    (field : Option Bytes) (c : Connection) : Prop where
  type : c.parser.parser.type = start.type
  statusMessage : c.parser.parser.statusMessage = start.statusMessage
  maxHeaderPairs : c.parser.fields.maxHeaderPairs = limit
  delivered : c.delivered = []
  numFields : c.parser.parser.numFields = c.parser.parser.numValues + field.toList.length
  space : c.parser.parser.numFields < Parser.arraySize
  current : ∀ name ∈ field, c.parser.parser.fields c.parser.parser.numValues = name
  batches : Batches limit start.url lines c.parser.parser c.parser.fields
  -- the arrays are empty only before the first line
  some_held : lines = [] ∨ c.parser.parser.numFields ≠ 0

section Collecting

variable (dumped : List Event → Bool) {limit : Int} {start : StartLine}
  {lines : List (Bytes × Bytes)} {name value : Bytes} {c : Connection}
variable {p p' : Parser} {url : Bytes} {f : Fields}

theorem Connection.callback_of {cb : Callback} {calls : List Call}
    (parsed : c.parser.parser.callback cb = some (p, calls)) :
    c.callback dumped cb = some
      { parser :=
          { parser := p
            fields := (calls.foldl (handle dumped) (c.parser.fields, c.delivered)).1 }
        delivered := (calls.foldl (handle dumped) (c.parser.fields, c.delivered)).2 } := by
  rw [Connection.callback, parsed]
  rfl

theorem Batches.flush
    (batches : Batches limit url lines p f) (maxHeaderPairs : f.maxHeaderPairs = limit)
    (full : 31 ≤ p.lines.length) (parserUrl : p'.url = []) (haveFlushed : p'.haveFlushed = true)
    (empty : p'.lines = []) :
    Batches limit url lines p' (parserOnHeaders (flat p.lines) p.url f) := by
  cases batches with
  | fast _ parserUrl₀ fieldsUrl headers held =>
    have collected : Collected limit lines (parserOnHeaders (flat p.lines) p.url f).headers := by
      have batch := (Collected.whole limit []).append lines
      rw [parserOnHeaders, headers, maxHeaderPairs, held]
      exact batch
    refine .slow lines haveFlushed parserUrl ?_ collected ?_ ?_
    · simp [parserOnHeaders, fieldsUrl, parserUrl₀]
    · simp [empty]
    rw [← held]
    exact full
  | slow flushed _ parserUrl₀ fieldsUrl collected held many =>
    have collected' : Collected limit lines
        (parserOnHeaders (flat p.lines) p.url f).headers := by
      have batch := collected.append p.lines
      rw [held] at batch
      rw [parserOnHeaders, maxHeaderPairs]
      exact batch
    refine .slow lines haveFlushed parserUrl ?_ collected' ?_ ?_
    · rw [parserOnHeaders, fieldsUrl, parserUrl₀, append_nil]
    · simp [empty]
    rw [← held, length_append]
    omega

theorem Batches.same
    (batches : Batches limit url lines p f) (haveFlushed : p'.haveFlushed = p.haveFlushed)
    (parserUrl : p'.url = p.url) (held : p'.lines = p.lines) : Batches limit url lines p' f := by
  cases batches with
  | fast flushed₀ parserUrl₀ fieldsUrl headers held₀ =>
    exact .fast (haveFlushed.trans flushed₀) (parserUrl.trans parserUrl₀) fieldsUrl headers
      (held.trans held₀)
  | slow flushed flushed₀ parserUrl₀ fieldsUrl collected held₀ many =>
    exact .slow flushed (haveFlushed.trans flushed₀) (parserUrl.trans parserUrl₀) fieldsUrl
      collected (held ▸ held₀) many

theorem Batches.extend
    {rest old new : List (Bytes × Bytes)} (batches : Batches limit url (lines ++ old) p f)
    (haveFlushed : p'.haveFlushed = p.haveFlushed) (parserUrl : p'.url = p.url)
    (before : p.lines = rest ++ old) (held : p'.lines = rest ++ new) :
    Batches limit url (lines ++ new) p' f := by
  cases batches with
  | fast flushed₀ parserUrl₀ fieldsUrl headers held₀ =>
    refine .fast (haveFlushed.trans flushed₀) (parserUrl.trans parserUrl₀) fieldsUrl headers ?_
    rw [held, append_cancel_right (before.symm.trans held₀)]
  | slow flushed flushed₀ parserUrl₀ fieldsUrl collected held₀ many =>
    rw [before, ← append_assoc] at held₀
    refine .slow flushed (haveFlushed.trans flushed₀) (parserUrl.trans parserUrl₀) fieldsUrl
      collected ?_ many
    rw [held, ← append_assoc, append_cancel_right held₀]

theorem Collecting.newField (collecting : Collecting limit start lines none c) (data : Bytes) :
    ∃ c', c.callback dumped (.onHeaderField data) = some c' ∧
      Collecting limit start lines (some data) c' := by
  have counts : c.parser.parser.numFields = c.parser.parser.numValues := collecting.numFields
  by_cases full : c.parser.parser.numFields + 1 = Parser.arraySize
  · refine ⟨_, Connection.callback_of dumped (Parser.onHeaderField_full counts full data), ?_⟩
    refine ⟨collecting.type, collecting.statusMessage, collecting.maxHeaderPairs,
      collecting.delivered, rfl, (by decide : 1 < Parser.arraySize), ?_, ?_, .inr Nat.one_ne_zero⟩
    · simp
    refine collecting.batches.flush collecting.maxHeaderPairs ?_ rfl rfl rfl
    rw [Parser.length_lines, ← counts]
    simp only [Parser.arraySize] at full
    omega
  have space : c.parser.parser.numFields + 1 < Parser.arraySize :=
    Nat.lt_of_le_of_ne collecting.space full
  refine ⟨_, Connection.callback_of dumped (Parser.onHeaderField_new counts space data), ?_⟩
  refine ⟨collecting.type, collecting.statusMessage, collecting.maxHeaderPairs,
    collecting.delivered, congrArg (· + 1) counts, space, ?_, ?_, .inr (Nat.succ_ne_zero _)⟩
  · simp [counts]
  refine collecting.batches.same rfl rfl ?_
  exact Parser.lines_fields_update (Nat.le_of_eq counts.symm) data

theorem Collecting.fieldPiece (collecting : Collecting limit start lines (some name) c)
    (data : Bytes) :
    ∃ c', c.callback dumped (.onHeaderField data) = some c' ∧
      Collecting limit start lines (some (name ++ data)) c' := by
  have counts : c.parser.parser.numFields = c.parser.parser.numValues + 1 := collecting.numFields
  refine ⟨_, Connection.callback_of dumped (Parser.onHeaderField_more counts collecting.space data),
    ?_⟩
  refine ⟨collecting.type, collecting.statusMessage, collecting.maxHeaderPairs,
    collecting.delivered, collecting.numFields, collecting.space, ?_, ?_, collecting.some_held⟩
  · simp [collecting.current]
  refine collecting.batches.same rfl rfl ?_
  exact Parser.lines_fields_update (Nat.le_refl _) _

theorem Collecting.newValue (collecting : Collecting limit start lines (some name) c)
    (data : Bytes) :
    ∃ c', c.callback dumped (.onHeaderValue data) = some c' ∧
      Collecting limit start (lines ++ [(name, data)]) none c' := by
  have counts : c.parser.parser.numFields = c.parser.parser.numValues + 1 := collecting.numFields
  refine ⟨_, Connection.callback_of dumped (Parser.onHeaderValue_new counts collecting.space data),
    ?_⟩
  refine ⟨collecting.type, collecting.statusMessage, collecting.maxHeaderPairs,
    collecting.delivered, counts, collecting.space, ?_, ?_, ?_⟩
  · simp
  · have batches := collecting.batches
    rw [← append_nil lines] at batches
    refine batches.extend rfl rfl (append_nil _).symm ?_
    rw [← collecting.current name rfl]
    exact Parser.lines_values_update
      (p := { c.parser.parser with numValues := c.parser.parser.numValues + 1 }) _ rfl data
  right
  dsimp only
  omega

theorem Collecting.valuePiece
    (collecting : Collecting limit start (lines ++ [(name, value)]) none c) (data : Bytes) :
    ∃ c', c.callback dumped (.onHeaderValue data) = some c' ∧
      Collecting limit start (lines ++ [(name, value ++ data)]) none c' := by
  have counts : c.parser.parser.numFields = c.parser.parser.numValues := collecting.numFields
  obtain ⟨n, count⟩ : ∃ n, c.parser.parser.numValues = n + 1 := by
    apply Nat.exists_eq_succ_of_ne_zero
    rw [← counts]
    exact collecting.some_held.resolve_left (by simp)
  have parsed := Parser.onHeaderValue_more n count counts collecting.space data
  refine ⟨_, Connection.callback_of dumped parsed, ?_⟩
  -- the line that is under way is the last of the arrays
  have last : (c.parser.parser.fields n, c.parser.parser.values n) = (name, value) := by
    have lines_eq := Parser.lines_succ n count
    have batches := collecting.batches
    cases batches with
    | fast _ _ _ _ held =>
      rw [lines_eq] at held
      exact singleton_inj.mp (append_inj_right' held rfl)
    | slow flushed _ _ _ _ held _ =>
      rw [lines_eq, ← append_assoc] at held
      exact singleton_inj.mp (append_inj_right' held rfl)
  obtain ⟨nameEq, valueEq⟩ := Prod.mk.inj last
  refine ⟨collecting.type, collecting.statusMessage, collecting.maxHeaderPairs,
    collecting.delivered, collecting.numFields, collecting.space, ?_, ?_, ?_⟩
  · simp
  · have before := Parser.lines_succ n count
    rw [last] at before
    refine collecting.batches.extend rfl rfl before ?_
    rw [valueEq, ← nameEq]
    exact Parser.lines_values_update n count (value ++ data)
  · grind

theorem Collecting.fieldPieces (collecting : Collecting limit start lines (some name) c)
    (pieces : List Bytes) :
    ∃ c', (pieces.map Callback.onHeaderField).foldlM (Connection.callback dumped) c = some c' ∧
      Collecting limit start lines (some (name ++ pieces.flatten)) c' := by
  induction pieces generalizing name c with
  | nil => exact ⟨c, rfl, by rwa [flatten_nil, append_nil]⟩
  | cons piece pieces ih =>
    obtain ⟨c₁, stepped, collecting₁⟩ := collecting.fieldPiece dumped piece
    obtain ⟨c', rest, collecting'⟩ := ih collecting₁
    rw [append_assoc, ← flatten_cons] at collecting'
    refine ⟨c', ?_, collecting'⟩
    simpa [stepped] using rest

theorem Collecting.valuePieces
    (collecting : Collecting limit start (lines ++ [(name, value)]) none c)
    (pieces : List Bytes) :
    ∃ c', (pieces.map Callback.onHeaderValue).foldlM (Connection.callback dumped) c = some c' ∧
      Collecting limit start (lines ++ [(name, value ++ pieces.flatten)]) none c' := by
  induction pieces generalizing value c with
  | nil => exact ⟨c, rfl, by rwa [flatten_nil, append_nil]⟩
  | cons piece pieces ih =>
    obtain ⟨c₁, stepped, collecting₁⟩ := collecting.valuePiece dumped piece
    obtain ⟨c', rest, collecting'⟩ := ih collecting₁
    rw [append_assoc, ← flatten_cons] at collecting'
    refine ⟨c', ?_, collecting'⟩
    simpa [stepped] using rest

theorem Collecting.follow {more : List (Bytes × Bytes)} {callbacks : List Callback}
    (reported : LinesReported more callbacks) (collecting : Collecting limit start lines none c) :
    ∃ c', callbacks.foldlM (Connection.callback dumped) c = some c' ∧
      Collecting limit start (lines ++ more) none c' := by
  induction reported generalizing lines c with
  | nil => exact ⟨c, rfl, by rwa [append_nil]⟩
  | cons first second firsts seconds rest ih =>
    obtain ⟨c₁, step₁, collecting₁⟩ := collecting.newField dumped first
    obtain ⟨c₂, step₂, collecting₂⟩ := collecting₁.fieldPieces dumped firsts
    obtain ⟨c₃, step₃, collecting₃⟩ := collecting₂.newValue dumped second
    obtain ⟨c₄, step₄, collecting₄⟩ := collecting₃.valuePieces dumped seconds
    obtain ⟨c', steps, collecting'⟩ := ih collecting₄
    refine ⟨c', ?_, ?_⟩
    · simp [step₁, step₂, step₃, step₄, steps]
    · simpa only [append_assoc, singleton_append, flatten_cons] using collecting'

end Collecting

/-! ## The header as a whole -/

section Header

variable (dumped : List Event → Bool) {limit : Int} {start : StartLine}
variable {header : Header} {p : Parser}

theorem url_pieces (pieces : List Bytes) (c : Connection) :
    (pieces.map Callback.onUrl).foldlM (Connection.callback dumped) c = some
      { c with
        parser.parser :=
          { c.parser.parser with url := c.parser.parser.url ++ pieces.flatten } } := by
  induction pieces generalizing c with
  | nil => simp
  | cons piece pieces ih =>
    have parsed : c.parser.parser.callback (.onUrl piece) =
      some ({ c.parser.parser with url := c.parser.parser.url ++ piece }, []) := rfl
    simp [Connection.callback_of dumped parsed, ih]

theorem status_pieces (pieces : List Bytes) (c : Connection) :
    (pieces.map Callback.onStatus).foldlM (Connection.callback dumped) c = some
      { c with
        parser.parser :=
          { c.parser.parser with
            statusMessage := c.parser.parser.statusMessage ++ pieces.flatten } } := by
  induction pieces generalizing c with
  | nil => simp
  | cons piece pieces ih =>
    have parsed : c.parser.parser.callback (.onStatus piece) = some ({ c.parser.parser with
        statusMessage := c.parser.parser.statusMessage ++ piece }, []) := rfl
    simp [Connection.callback_of dumped parsed, ih]

theorem collecting_start {callbacks : List Callback} (reported : start.Reported callbacks) :
    ∃ c, (Callback.onMessageBegin :: callbacks).foldlM (Connection.callback dumped)
        (HTTPParser.new.connect start.type limit) = some c ∧
      Collecting limit start [] none c := by
  have parsed : (HTTPParser.new.connect start.type limit).parser.parser.callback .onMessageBegin =
    some ((HTTPParser.new.connect start.type limit).parser.parser.onMessageBegin, []) := rfl
  cases reported with
  | request pieces =>
    refine ⟨_, url_pieces dumped pieces _, ?_⟩
    refine ⟨rfl, rfl, rfl, rfl, rfl, (by decide : 0 < Parser.arraySize), ?_, ?_, .inl rfl⟩
    · simp
    · exact .fast rfl rfl rfl rfl rfl
  | response pieces =>
    refine ⟨_, status_pieces dumped pieces _, ?_⟩
    refine ⟨rfl, rfl, rfl, rfl, rfl, (by decide : 0 < Parser.arraySize), ?_, ?_, .inl rfl⟩
    · simp
    · exact .fast rfl rfl rfl rfl rfl

theorem Header.delivered {f : Fields} {given : Option (List Bytes)}
    {url : Option Bytes} (even : 2 ∣ limit) (maxHeaderPairs : f.maxHeaderPairs = limit)
    (headers : Collected limit header.lines (given.getD f.headers))
    (urls : url.getD [] = header.start.url ∧ f.url = [] ∨
      url.getD [] = [] ∧ f.url = header.start.url) :
    (parserOnHeadersComplete (header.args given url) f).2 = [.message (header.message limit)] := by
  have rawHeaders := headers.added even
  have theUrl : (if url.getD [] = [] then f.url else url.getD []) = header.start.url := by
    rcases urls with ⟨passed, empty⟩ | ⟨missing, kept⟩
    · grind
    · rw [if_pos missing, kept]
  have method : header.start.type = .request ∨ header.start.type = .response := by
    cases header.start with
    | request url => exact .inl rfl
    | response => exact .inr rfl
  have first : (parserOnHeadersComplete (header.args given url) f).2 =
      [.message { header.message limit with
        url := if url.getD [] = [] then f.url else url.getD []
        rawHeaders := addHeaderLines (given.getD f.headers)
          (if limit > 0 then min (given.getD f.headers).length limit.toNat
            else (given.getD f.headers).length) }] := by
    rcases method with type | type <;> cases given <;> by_cases missing : url.getD [] = [] <;>
      simp [parserOnHeadersComplete, Header.args, Header.message, type, missing, maxHeaderPairs]
  rw [first, theUrl, rawHeaders]
  rfl

variable {lines : List (Bytes × Bytes)} {c : Connection}

theorem Parser.onHeadersComplete_fast
    (type : p.type = header.start.type) (status : p.statusMessage = header.start.statusMessage)
    (haveFlushed : p.haveFlushed = false) :
    p.onHeadersComplete header.head = ({ p with numFields := 0, numValues := 0 },
        [.kOnHeadersComplete (header.args (some (flat p.lines))
          (if header.start.type = .request then some p.url else none))]) := by
  simp [Parser.onHeadersComplete, haveFlushed, Header.args, type, status, Parser.createHeaders_eq]

theorem Parser.onHeadersComplete_slow
    (type : p.type = header.start.type) (status : p.statusMessage = header.start.statusMessage)
    (haveFlushed : p.haveFlushed = true) :
    p.onHeadersComplete header.head = ({ p with url := [], numFields := 0, numValues := 0 },
        [.kOnHeaders (flat p.lines) p.url, .kOnHeadersComplete (header.args none none)]) := by
  simp [Parser.onHeadersComplete, haveFlushed, Header.args, type, status, Parser.flush,
    Parser.createHeaders_eq]

/-- With its last header, a message is delivered with all of them. -/
theorem Collecting.complete
    (collecting : Collecting limit header.start header.lines none c) (even : 2 ∣ limit) :
    ∃ c', c.callback dumped (.onHeadersComplete header.head) = some c' ∧
      c'.delivered = [.message (header.message limit)] ∧
      (c'.parser.parser.haveFlushed = true ↔ Parser.arraySize ≤ header.lines.length) := by
  have counts : c.parser.parser.numFields = c.parser.parser.numValues := collecting.numFields
  have count := Parser.length_lines c.parser.parser
  have space := collecting.space
  have batches := collecting.batches
  cases batches with
  | fast haveFlushed parserUrl fieldsUrl headers held =>
    have parsed : c.parser.parser.callback (.onHeadersComplete header.head) = _ :=
      congrArg some (Parser.onHeadersComplete_fast collecting.type collecting.statusMessage
        haveFlushed)
    refine ⟨_, Connection.callback_of dumped parsed, ?_, ?_⟩
    · have delivered : (parserOnHeadersComplete (header.args (some (flat c.parser.parser.lines))
          (if header.start.type = .request then some c.parser.parser.url else none))
          c.parser.fields).2 = [.message (header.message limit)] := by
        refine Header.delivered even collecting.maxHeaderPairs ?_ (.inl ⟨?_, fieldsUrl⟩)
        · rw [held]
          exact Collected.whole limit header.lines
        rw [parserUrl]
        cases header.start with
        | request url => rfl
        | response => rfl
      simp [handle, collecting.delivered, delivered]
    rw [haveFlushed, ← held]
    simp only [Bool.false_eq_true, false_iff]
    omega
  | slow flushed haveFlushed parserUrl fieldsUrl collected held many =>
    have parsed : c.parser.parser.callback (.onHeadersComplete header.head) = _ :=
      congrArg some (Parser.onHeadersComplete_slow collecting.type collecting.statusMessage
        haveFlushed)
    refine ⟨_, Connection.callback_of dumped parsed, ?_, ?_⟩
    · have delivered : (parserOnHeadersComplete (header.args none none)
          (parserOnHeaders (flat c.parser.parser.lines) c.parser.parser.url
            c.parser.fields)).2 = [.message (header.message limit)] := by
        refine Header.delivered even collecting.maxHeaderPairs ?_ (.inr ⟨rfl, ?_⟩)
        · have batch := collected.append c.parser.parser.lines
          rw [held] at batch
          rw [parserOnHeaders, collecting.maxHeaderPairs]
          exact batch
        · simp [parserOnHeaders, fieldsUrl, parserUrl]
      simp only [foldl_cons, foldl_nil, handle, collecting.delivered, delivered, nil_append]
    have some_ : header.lines ≠ [] := by
      intro empty
      rw [empty] at held
      rw [(append_eq_nil_iff.mp held).1] at many
      exact absurd many (by decide)
    have held' := collecting.some_held.resolve_left some_
    rw [haveFlushed, ← held, length_append]
    simp only [true_iff, Parser.arraySize]
    omega

end Header

/-- However the input is cut, no `CHECK` fails, and what is delivered is the url and the headers up
to the limit; the headers come in batches when there are more than the arrays hold. -/
theorem header_delivered (dumped : List Event → Bool) (maxHeadersCount : Option (BitVec 32))
    (header : Header) {segments : List Segment} {told : List (List Callback)}
    (read : segments.mapM Segment.read = some told) (reported : header.Reported told.flatten) :
    ∃ c, segments.foldlM (RawConnection.execute dumped)
        (.new header.start.type (maxHeaderPairs maxHeadersCount)) = some c ∧
      c.delivered = [.message (header.message (maxHeaderPairs maxHeadersCount))] ∧
      (c.parser.haveFlushed = true ↔ Parser.arraySize ≤ header.lines.length) := by
  obtain ⟨c', done, delivered, flushed⟩ : ∃ c', told.flatten.foldlM (Connection.callback dumped)
      (HTTPParser.new.connect header.start.type (maxHeaderPairs maxHeadersCount)) = some c' ∧
      c'.delivered = [.message (header.message (maxHeaderPairs maxHeadersCount))] ∧
      (c'.parser.parser.haveFlushed = true ↔ Parser.arraySize ≤ header.lines.length) := by
    generalize told.flatten = callbacks at reported
    cases reported with
    | mk starts follow =>
      obtain ⟨c₁, begun, collecting₁⟩ := collecting_start dumped starts
      obtain ⟨c₂, collected, collecting₂⟩ := collecting₁.follow dumped follow
      obtain ⟨c', completed, delivered⟩ :=
        collecting₂.complete dumped (two_dvd_maxHeaderPairs maxHeadersCount)
      refine ⟨c', ?_, delivered⟩
      rw [foldlM_append, foldlM_append, begun]
      simp [collected, completed]
  obtain ⟨c, executed, serves⟩ := RawConnection.executes
    (RawConnection.serves_new header.start.type (maxHeaderPairs maxHeadersCount)) read done
  have anywhere := serves { data := 0, bytes := [] }
  refine ⟨c, executed, anywhere.delivered.trans delivered, ?_⟩
  rw [anywhere.parser.haveFlushed]
  exact flushed

/-- `GET /a HTTP/1.1` with the headers `H: v` and `I:`, cut in the url and in the value, in buffers
at the same address. -/
def cutHeader : List Segment :=
  [ { buffer := { data := 100, bytes := [71, 69, 84, 32, 47] }
      callbacks := [.onMessageBegin, .onUrl 104 1] },
    { buffer :=
        { data := 100, bytes := [97, 32, 72, 84, 84, 80, 47, 49, 46, 49, 13, 10, 72, 58, 118] }
      callbacks := [.onUrl 100 1, .onHeaderField 112 1, .onHeaderValue 114 1] },
    { buffer := { data := 100, bytes := [119, 13, 10, 73, 58, 13, 10, 13, 10] }
      callbacks := [.onHeaderValue 100 1, .onHeaderField 103 1, .onHeaderValue 105 0,
        .onHeadersComplete ⟨1, 1, 1, 0, false, true⟩] } ]

theorem header_delivered_cut : ∃ c, cutHeader.foldlM (RawConnection.execute fun _ => false)
        (.new .request (maxHeaderPairs (some 1))) = some c ∧
      c.delivered = [.message
        { httpVersionMajor := 1
          httpVersionMinor := 1
          url := [47, 97]
          rawHeaders := [[72], [118, 119]]
          method := some 1
          statusCode := none
          statusMessage := none
          upgrade := false
          shouldKeepAlive := true }] ∧
      (c.parser.haveFlushed = true ↔ Parser.arraySize ≤ 2) := by
  have read : cutHeader.mapM Segment.read = some
      [[.onMessageBegin, .onUrl [47]], [.onUrl [97], .onHeaderField [72], .onHeaderValue [118]],
        [.onHeaderValue [119], .onHeaderField [73], .onHeaderValue [],
          .onHeadersComplete ⟨1, 1, 1, 0, false, true⟩]] := rfl
  have starts := StartLine.Reported.request [[47], [97]]
  have follow := LinesReported.cons [72] [118] [] [[119]] (.cons [73] [] [] [] .nil)
  let header : Header :=
    { start := .request [47, 97]
      lines := [([72], [118, 119]), ([73], [])]
      head := ⟨1, 1, 1, 0, false, true⟩ }
  have reported : header.Reported _ := .mk starts follow
  obtain ⟨c, executed, delivered, flushed⟩ :=
    header_delivered (fun _ => false) (some 1) header read reported
  refine ⟨c, executed, ?_, flushed⟩
  rw [delivered]
  decide

end IoJs.Http
