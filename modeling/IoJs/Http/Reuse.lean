import IoJs.Http.Common

/-!
# Parsers that are used again

A parser of the free list has been through the hands of other connections. What `Init` and
`freeParser` leave of them is the contents of the arrays, which are never read, and `_url`, which
is: a connection that dies after its headers were flushed leaves its url there for the next.
-/

namespace IoJs.Http

open List Option

/-! ## The arrays -/

/-- Two parsers that differ in slots that are not in use. -/
structure Alike (p q : Parser) : Prop where
  type : p.type = q.type
  url : p.url = q.url
  statusMessage : p.statusMessage = q.statusMessage
  numFields : p.numFields = q.numFields
  numValues : p.numValues = q.numValues
  haveFlushed : p.haveFlushed = q.haveFlushed
  values_le : p.numValues ≤ p.numFields
  fields : ∀ i < p.numFields, p.fields i = q.fields i
  values : ∀ i < p.numValues, p.values i = q.values i

/-- They do the same with a callback. -/
def Agree : Option (Parser × List Call) → Option (Parser × List Call) → Prop
  | some (p, calls), some (q, calls') => Alike p q ∧ calls = calls'
  | none, none => True
  | _, _ => False

section Alike

variable {p q : Parser}

theorem alike_init (p q : Parser) (type : ParserType) : Alike (p.init type) (q.init type) := by
  refine ⟨rfl, rfl, rfl, rfl, rfl, rfl, Nat.le_refl 0, ?_, ?_⟩
  · intro i small
    cases small
  intro i small
  cases small

theorem Alike.createHeaders (alike : Alike p q) : p.createHeaders = q.createHeaders := by
  rw [Parser.createHeaders, Parser.createHeaders, ← alike.numValues]
  apply flatMap_congr
  intro i member
  have small := mem_range.mp member
  rw [alike.fields i (Nat.lt_of_lt_of_le small alike.values_le), alike.values i small]

theorem Alike.flush (alike : Alike p q) : Alike p.flush.1 q.flush.1 ∧ p.flush.2 = q.flush.2 := by
  refine ⟨⟨alike.type, rfl, alike.statusMessage, alike.numFields, alike.numValues, rfl,
    alike.values_le, alike.fields, alike.values⟩, ?_⟩
  simp only [Parser.flush, alike.createHeaders, alike.url]

theorem update_congr {f g : Nat → Bytes} {n j : Nat} (same : ∀ i < n, i ≠ j → f i = g i)
    {a b : Bytes} (ab : a = b) : ∀ i < n, Function.update f j a i = Function.update g j b i := by
  intro i small
  by_cases here : i = j
  · rw [here, Function.update_self, Function.update_self, ab]
  · rw [Function.update_of_ne here, Function.update_of_ne here, same i small here]

section

variable (alike : Alike p q)
include alike

theorem Alike.newField : Alike p.newField.1 q.newField.1 ∧ p.newField.2 = q.newField.2 := by
  have count : p.numFields + 1 = q.numFields + 1 := congrArg (· + 1) alike.numFields
  by_cases full : p.numFields + 1 = Parser.arraySize
  · have full' : q.numFields + 1 = Parser.arraySize := count ▸ full
    simp only [Parser.newField, if_pos full, if_pos full']
    obtain ⟨-, calls⟩ := alike.flush
    refine ⟨⟨alike.type, rfl, alike.statusMessage, rfl, rfl, rfl, Nat.zero_le 1, ?_, ?_⟩, ?_⟩
    · apply update_congr _ rfl
      intro i small other
      exact absurd (Nat.lt_one_iff.mp small) other
    · intro i small
      cases small
    · simpa [Parser.flush, Parser.createHeaders] using calls
  have full' : ¬ q.numFields + 1 = Parser.arraySize := count ▸ full
  simp only [Parser.newField, if_neg full, if_neg full']
  refine ⟨⟨alike.type, alike.url, alike.statusMessage, count, alike.numValues, alike.haveFlushed,
    Nat.le_succ_of_le alike.values_le, ?_, alike.values⟩, trivial⟩
  simp only [Nat.add_sub_cancel, ← alike.numFields]
  apply update_congr _ rfl
  intro i small other
  exact alike.fields i (by omega)

theorem Alike.onHeaderField (data : Bytes) :
    Agree (p.onHeaderField data) (q.onHeaderField data) := by
  -- the slot is that of the field that is under way, or a new one
  obtain ⟨p', q', calls, alike', eq, eq'⟩ : ∃ p' q' calls, Alike p' q' ∧
      (if p.numFields = p.numValues then p.newField else (p, [])) = (p', calls) ∧
      (if q.numFields = q.numValues then q.newField else (q, [])) = (q', calls) := by
    by_cases new : p.numFields = p.numValues
    · have new' : q.numFields = q.numValues := by rw [← alike.numFields, ← alike.numValues, new]
      obtain ⟨alike', calls⟩ := alike.newField
      refine ⟨_, _, p.newField.2, alike', ?_, ?_⟩
      · rw [if_pos new]
      · rw [if_pos new', calls]
    have new' : ¬ q.numFields = q.numValues := by rwa [← alike.numFields, ← alike.numValues]
    refine ⟨p, q, [], alike, ?_, ?_⟩
    · rw [if_neg new]
    · rw [if_neg new']
  rw [Parser.onHeaderField, Parser.onHeaderField, eq, eq']
  dsimp only
  rw [← alike'.numFields, ← alike'.numValues]
  by_cases check : p'.numFields < Parser.arraySize ∧ p'.numFields = p'.numValues + 1
  · rw [if_pos check, if_pos check]
    refine ⟨⟨alike'.type, alike'.url, alike'.statusMessage, rfl, rfl, alike'.haveFlushed,
      alike'.values_le, ?_, alike'.values⟩, rfl⟩
    have last := alike'.fields (p'.numFields - 1) (by omega)
    exact update_congr (fun i small _ => alike'.fields i small) (by rw [last])
  rw [if_neg check, if_neg check]
  trivial

theorem Alike.onHeaderValue (data : Bytes) :
    Agree (p.onHeaderValue data) (q.onHeaderValue data) := by
  obtain ⟨p', q', alike', eq, eq'⟩ : ∃ p' q', Alike p' q' ∧
      (if p.numValues ≠ p.numFields then p.newValue else p) = p' ∧
      (if q.numValues ≠ q.numFields then q.newValue else q) = q' := by
    by_cases new : p.numValues ≠ p.numFields
    · have new' : q.numValues ≠ q.numFields := by rwa [← alike.numFields, ← alike.numValues]
      have le := alike.values_le
      refine ⟨p.newValue, q.newValue, ?_, if_pos new, if_pos new'⟩
      refine ⟨alike.type, alike.url, alike.statusMessage, alike.numFields,
        congrArg (· + 1) alike.numValues, alike.haveFlushed, ?_, alike.fields, ?_⟩
      · simp only [Parser.newValue]
        omega
      simp only [Parser.newValue, Nat.add_sub_cancel, ← alike.numValues]
      apply update_congr _ rfl
      intro i small other
      exact alike.values i (by omega)
    have new' : ¬ q.numValues ≠ q.numFields := by rwa [← alike.numFields, ← alike.numValues]
    exact ⟨p, q, alike, if_neg new, if_neg new'⟩
  rw [Parser.onHeaderValue, Parser.onHeaderValue, eq, eq']
  rw [← alike'.numFields, ← alike'.numValues]
  by_cases check : p'.numValues < Parser.arraySize ∧ p'.numValues = p'.numFields ∧ p'.numValues ≠ 0
  · rw [if_pos check, if_pos check]
    refine ⟨⟨alike'.type, alike'.url, alike'.statusMessage, rfl, rfl, alike'.haveFlushed,
      alike'.values_le, alike'.fields, ?_⟩, rfl⟩
    have last := alike'.values (p'.numValues - 1) (by omega)
    exact update_congr (fun i small _ => alike'.values i small) (by rw [last])
  rw [if_neg check, if_neg check]
  trivial

theorem Alike.emptied :
    Alike { p with numFields := 0, numValues := 0 } { q with numFields := 0, numValues := 0 } := by
  refine ⟨alike.type, alike.url, alike.statusMessage, rfl, rfl, alike.haveFlushed, Nat.le_refl 0,
    ?_, ?_⟩
  · intro i small
    cases small
  intro i small
  cases small

/-- Parsers that are alike answer each callback alike. -/
theorem Alike.callback (c : Callback) : Agree (p.callback c) (q.callback c) := by
  cases c with
  | onMessageBegin =>
    have cleared := alike.emptied
    exact ⟨⟨cleared.type, rfl, rfl, rfl, rfl, cleared.haveFlushed, cleared.values_le,
      cleared.fields, cleared.values⟩, rfl⟩
  | onUrl data =>
    refine ⟨⟨alike.type, ?_, alike.statusMessage, alike.numFields, alike.numValues,
      alike.haveFlushed, alike.values_le, alike.fields, alike.values⟩, rfl⟩
    simp only [alike.url]
  | onStatus data =>
    refine ⟨⟨alike.type, alike.url, ?_, alike.numFields, alike.numValues, alike.haveFlushed,
      alike.values_le, alike.fields, alike.values⟩, rfl⟩
    simp only [alike.statusMessage]
  | onHeaderField data => exact alike.onHeaderField data
  | onHeaderValue data => exact alike.onHeaderValue data
  | onHeadersComplete head =>
    simp only [Parser.callback, Parser.onHeadersComplete]
    by_cases flushed : p.haveFlushed = true
    · have flushed' : q.haveFlushed = true := alike.haveFlushed ▸ flushed
      obtain ⟨alike', calls⟩ := alike.flush
      simp only [if_pos flushed, if_pos flushed', calls, alike'.type, alike'.statusMessage]
      have cleared := alike'.emptied
      exact ⟨⟨rfl, cleared.url, rfl, rfl, rfl, cleared.haveFlushed, cleared.values_le,
        cleared.fields, cleared.values⟩, rfl⟩
    have flushed' : ¬ q.haveFlushed = true := alike.haveFlushed ▸ flushed
    simp only [if_neg flushed, if_neg flushed', alike.createHeaders, alike.type, alike.url,
      alike.statusMessage]
    have cleared := alike.emptied
    exact ⟨⟨rfl, rfl, rfl, rfl, rfl, cleared.haveFlushed, cleared.values_le, cleared.fields,
      cleared.values⟩, rfl⟩
  | onBody data => exact ⟨alike, rfl⟩
  | onMessageComplete =>
    simp only [Parser.callback, Parser.onMessageComplete, ← alike.numFields]
    by_cases trailers : p.numFields ≠ 0
    · obtain ⟨alike', calls⟩ := alike.flush
      simp only [if_pos trailers, calls]
      exact ⟨alike', rfl⟩
    simp only [if_neg trailers]
    exact ⟨alike, rfl⟩

theorem Alike.calls (callbacks : List Callback) : p.calls callbacks = q.calls callbacks := by
  induction callbacks generalizing p q with
  | nil => rfl
  | cons c callbacks ih =>
    have agree := alike.callback c
    rw [Parser.calls, Parser.calls]
    rcases h : p.callback c with _ | ⟨p', made⟩ <;> rcases h' : q.callback c with _ | ⟨q', made'⟩
    · rfl
    · rw [h, h'] at agree
      cases agree
    · rw [h, h'] at agree
      cases agree
    rw [h, h'] at agree
    obtain ⟨alike', rfl⟩ := agree
    exact congrArg (made ++ ·) (ih alike')

end

end Alike

/-! ## The url that is left -/

/-- Until the first message is complete, every call for the headers has a url of its own;
`incoming` tells whether there is a message. -/
def urlsPassed : Bool → List Call → Bool
  | _, [] => true
  | _, .kOnHeadersComplete args :: calls => args.url.getD [] ≠ [] ∧ urlsPassed true calls
  | incoming, .kOnMessageComplete :: calls => incoming ∨ urlsPassed false calls
  | incoming, .kOnHeaders _ _ :: calls => urlsPassed incoming calls
  | incoming, .kOnBody _ :: calls => urlsPassed incoming calls

/-- The fields, with something left in the url. -/
def Fields.stale (f : Fields) (left : Bytes) : Fields := { f with url := left ++ f.url }

section Left

variable {dumped : List Event → Bool} {args : HeadersComplete} {left : Bytes}

theorem deliveries_eq (c : Connection) (callbacks : List Callback) : c.deliveries dumped callbacks =
    ((c.parser.parser.calls callbacks).foldl (handle dumped) (c.parser.fields, c.delivered)).2 := by
  induction callbacks generalizing c with
  | nil => rfl
  | cons cb callbacks ih =>
    rw [Connection.deliveries, Connection.callback, Parser.calls]
    rcases c.parser.parser.callback cb with _ | ⟨parser, calls⟩
    · rfl
    rw [foldl_append]
    exact ih _

theorem handle_extends (calls : List Call) (state : Fields × List Event) :
    ∃ more, (calls.foldl (handle dumped) state).2 = state.2 ++ more := by
  induction calls generalizing state with
  | nil => exact ⟨[], (append_nil _).symm⟩
  | cons call calls ih =>
    obtain ⟨first, eq⟩ : ∃ first, (handle dumped state call).2 = state.2 ++ first := by
      cases call with
      | kOnHeaders => exact ⟨[], (append_nil _).symm⟩
      | kOnHeadersComplete | kOnBody | kOnMessageComplete => exact ⟨_, rfl⟩
    obtain ⟨rest, eq'⟩ := ih (handle dumped state call)
    refine ⟨first ++ rest, ?_⟩
    rw [foldl_cons, eq', eq, append_assoc]

theorem stale_headers (f : Fields) (left : Bytes) (headers : List Bytes) (url : Bytes) :
    parserOnHeaders headers url (f.stale left) = (parserOnHeaders headers url f).stale left := by
  simp only [parserOnHeaders, Fields.stale, append_assoc]
  rfl

theorem stale_passed (f : Fields) (left : Bytes) (passed : args.url.getD [] ≠ []) :
    parserOnHeadersComplete args (f.stale left) =
      ((parserOnHeadersComplete args f).1.stale left, (parserOnHeadersComplete args f).2) := by
  cases headers : args.headers <;> simp [parserOnHeadersComplete, Fields.stale, passed, headers]

theorem stale_delivered (f : Fields) (some_left : left ≠ []) (missing : args.url.getD [] = []) :
    (parserOnHeadersComplete args (f.stale left)).2 ≠ (parserOnHeadersComplete args f).2 := by
  cases headers : args.headers <;>
    simp [parserOnHeadersComplete, Fields.stale, missing, headers, some_left]

theorem stale_iff (dumped : List Event → Bool) (calls : List Call) (f : Fields)
    (some_left : left ≠ [])
    (delivered : List Event) :
    (calls.foldl (handle dumped) (f.stale left, delivered)).2 =
        (calls.foldl (handle dumped) (f, delivered)).2 ↔
      urlsPassed f.incoming calls = true := by
  induction calls generalizing f delivered with
  | nil => simp [urlsPassed]
  | cons call calls ih =>
    rw [foldl_cons, foldl_cons]
    cases call with
    | kOnHeaders =>
      simp only [handle, stale_headers, urlsPassed]
      exact ih _ _
    | kOnHeadersComplete args =>
      by_cases passed : args.url.getD [] ≠ []
      · simp only [handle, stale_passed f left passed, urlsPassed, passed, ne_eq,
          not_false_eq_true, true_and, decide_eq_true_eq]
        exact ih (parserOnHeadersComplete args f).1 _
      have missing : args.url.getD [] = [] := not_not.mp passed
      have differ := stale_delivered f some_left missing
      simp only [urlsPassed, missing, ne_eq, not_true_eq_false, false_and, decide_false,
        Bool.false_eq_true, iff_false]
      intro same
      obtain ⟨more, eq⟩ := handle_extends calls
        (handle dumped (f.stale left, delivered) (.kOnHeadersComplete args))
      obtain ⟨more', eq'⟩ := handle_extends calls
        (handle dumped (f, delivered) (.kOnHeadersComplete args))
      rw [eq, eq'] at same
      simp only [handle, append_assoc] at same
      have tails := append_cancel_left same
      exact differ (append_inj_left tails rfl)
    | kOnBody =>
      exact ih _ _
    | kOnMessageComplete =>
      cases incoming : f.incoming with
      | true => simp [handle, parserOnMessageComplete, Fields.stale, incoming, urlsPassed]
      | false =>
        have here := ih f delivered
        simpa [handle, parserOnMessageComplete, Fields.stale, incoming, urlsPassed] using here

end Left

/-! ## The free list -/

namespace Parsers

/-- The parsers that are free have no headers and no message. -/
def Cleared (s : Parsers) : Prop := ∀ p ∈ s.list, p.fields.headers = [] ∧ p.fields.incoming = false

variable {s : Parsers}

/-- Each step leaves the free parsers without headers and without a message. -/
theorem Cleared.step {s' : Parsers} (cleared : s.Cleared) {action : Action}
    (stepped : s.step action = some s') : s'.Cleared := by
  cases action with
  | connect =>
    cases stepped
    intro p member
    rcases list : s.list with _ | ⟨q, rest⟩
    · simp [list] at member
    simp only [list] at member
    exact cleared p (list ▸ mem_cons_of_mem _ member)
  | callbacks =>
    simp only [Parsers.step, bind_eq_bind, bind_eq_some_iff] at stepped
    obtain ⟨c, -, c', -, eq⟩ := stepped
    cases eq
    exact cleared
  | free i =>
    simp only [Parsers.step, bind_eq_bind, bind_eq_some_iff] at stepped
    obtain ⟨c, -, eq⟩ := stepped
    cases eq
    intro p member
    split at member
    · rcases mem_append.mp member with before | here
      · exact cleared p before
      obtain rfl := mem_singleton.mp here
      exact ⟨rfl, rfl⟩
    · exact cleared p member

theorem Cleared.replay {history : List Action} (reached : replay history = some s) : s.Cleared := by
  suffices run : ∀ {s₀ : Parsers}, s₀.Cleared → history.foldlM Parsers.step s₀ = some s →
      s.Cleared by
    apply run _ reached
    intro p member
    cases member
  clear reached
  intro s₀ cleared reached
  induction history generalizing s₀ with
  | nil =>
    cases reached
    exact cleared
  | cons action history ih =>
    rw [foldlM_cons, bind_eq_bind, bind_eq_some_iff] at reached
    obtain ⟨s₁, stepped, rest⟩ := reached
    exact ih (cleared.step stepped) rest

theorem Cleared.connect (cleared : s.Cleared) (type : ParserType) (maxHeaderPairs : Int) :
    (s.alloc.1.connect type maxHeaderPairs).parser.fields =
      ((HTTPParser.new.connect type maxHeaderPairs).parser.fields).stale s.alloc.1.fields.url := by
  rcases list : s.list with _ | ⟨p, rest⟩
  · simp [alloc, list, HTTPParser.connect, Fields.stale]
    rfl
  have empty := (cleared p (by simp [list])).1
  simp [alloc, list, HTTPParser.connect, Fields.stale, HTTPParser.new, empty]

/-- After whatever history, a connection delivers what it would deliver on a parser that is new,
if and only if nothing is left in the url, or its own urls hide it. -/
theorem reuse_delivers {history : List Action} {s : Parsers} (reached : replay history = some s)
    (type : ParserType) (maxHeaderPairs : Int) (dumped : List Event → Bool)
    (callbacks : List Callback) :
    (s.alloc.1.connect type maxHeaderPairs).deliveries dumped callbacks =
        (HTTPParser.new.connect type maxHeaderPairs).deliveries dumped callbacks ↔
      s.alloc.1.fields.url = [] ∨ urlsPassed false ((Parser.new type).calls callbacks) = true := by
  have cleared := Cleared.replay reached
  have calls : ∀ p : HTTPParser, (p.connect type maxHeaderPairs).parser.parser.calls callbacks =
      (Parser.new type).calls callbacks :=
    fun p => (alike_init p.parser _ type).calls callbacks
  rw [deliveries_eq, deliveries_eq, calls, calls, cleared.connect]
  by_cases left : s.alloc.1.fields.url = []
  · rw [left]
    simp only [true_or, iff_true]
    rfl
  have iff := stale_iff dumped ((Parser.new type).calls callbacks)
    (HTTPParser.new.connect type maxHeaderPairs).parser.fields left []
  simp only [left, false_or]
  exact iff

/-- A header, as `http_parser` reports it. -/
def header : List Callback := [.onHeaderField [120], .onHeaderValue [121]]

/-- A request that dies after 32 headers. -/
def cutRequest : List Callback :=
  [.onMessageBegin, .onUrl [47, 97]] ++ (List.replicate 32 header).flatten

/-- A request with 32 headers. -/
def longRequest : List Callback :=
  [.onMessageBegin, .onUrl [47, 98]] ++ (List.replicate 32 header).flatten ++
    [.onHeadersComplete ⟨1, 1, 1, 0, false, true⟩, .onMessageComplete]

/-- A connection that dies while it reports its headers. -/
def cutHistory : List Action :=
  [.connect .request 2000, .callbacks 0 (fun _ => false) cutRequest, .free 0]

/-- A request without headers -/
def shortRequest : List Callback :=
  [.onMessageBegin, .onUrl [47, 98], .onHeadersComplete ⟨1, 1, 1, 0, false, true⟩,
   .onMessageComplete]

/-- The parser of the connection that died has its url left, which the next request hides. -/
theorem reuse_delivers_hidden : ∃ s, replay cutHistory = some s ∧ s.alloc.1.fields.url = [47, 97] ∧
    (s.alloc.1.connect .request 2000).deliveries (fun _ => false) shortRequest =
      (HTTPParser.new.connect .request 2000).deliveries (fun _ => false) shortRequest := by
  refine ⟨_, rfl, by decide, ?_⟩
  exact (reuse_delivers (rfl : replay cutHistory = some _) .request 2000 _ _).mpr (.inr (by decide))

/-- The url of the connection that died goes before that of the next. -/
theorem url_left_for_next : ∃ s, replay cutHistory = some s ∧
    (s.alloc.1.connect .request 2000).deliveries (fun _ => false) longRequest ≠
      (HTTPParser.new.connect .request 2000).deliveries (fun _ => false) longRequest := by
  refine ⟨_, rfl, ?_⟩
  decide

end Parsers

end IoJs.Http
