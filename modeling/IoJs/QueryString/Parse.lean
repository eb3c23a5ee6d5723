import IoJs.Library.Properties
import IoJs.Library.Separators
import IoJs.QueryString.Escape

/-!
# Query strings

`stringify` writes a pair for every value of an object, and every item of an array (`stringify_eq`);
`parse` reads one pair after the other, and makes an array of the values of one key. The separators
are escaped in keys and values, so each pair is read as it was written (`readPair_pair`), and the
pairs of one key give its value back (`parsePairs_entry`).
-/

namespace IoJs.QueryString

open IoJs.Stream IoJs.RegExp IoJs.Library List Option
open IoJs.Library.Properties (setEntries setEntries_append lookup_append_cons)

/-- A value that is no array -/
inductive Primitive where
  | string (text : JSString)
  /-- a finite number, as it is printed -/
  | number (text : JSString)
  | boolean (value : Bool)
  | other
  deriving DecidableEq

/-- A value of an object -/
inductive Value where
  | primitive (value : Primitive)
  | array (items : List Primitive)
  deriving DecidableEq

/-- An object -/
abbrev Obj := Library.Properties JSString Value

def ampersand : UInt16 := unit '&'

def equals : UInt16 := unit '='

/-! ## Writing -/

def stringifyPrimitive : Primitive → JSString
  | .string text => text
  | .number text => text
  | .boolean value => if value then js "true" else js "false"
  | .other => []

/-- The loop over an array -/
def stringifyItems (ks : JSString) : List Primitive → JSString
  | [] => []
  | item :: rest =>
    ks ++ escape (stringifyPrimitive item) ++ (if rest ≠ [] then [ampersand] else []) ++
      stringifyItems ks rest

/-- What the loop over the keys does with one of them -/
def stringifyValue (ks : JSString) (last : Bool) : Value → JSString
  | .array items => stringifyItems ks items ++ if items ≠ [] ∧ ¬last then [ampersand] else []
  | .primitive value => ks ++ escape (stringifyPrimitive value) ++ if ¬last then [ampersand] else []

/-- The loop over the keys -/
def stringifyEntries : List (JSString × Value) → JSString
  | [] => []
  | entry :: rest =>
    stringifyValue (escape entry.1 ++ [equals]) rest.isEmpty entry.2 ++ stringifyEntries rest

/-- `QueryString.stringify` -/
def stringify (obj : Obj) : JSString := stringifyEntries obj.entries

/-! ## Reading -/

/-- `obj[k] = v`; `__proto__` is no own property, and setting it does not make it one. -/
def Obj.assign (k : JSString) (v : Value) (obj : Obj) : Obj :=
  if k = js "__proto__" then obj else obj.set k v

/-- `x.replace(/\+/g, '%20')` -/
def replacePlus (x : JSString) : JSString :=
  x.flatMap fun c => if c = unit '+' then js "%20" else [c]

/-- The key and the value of a pair -/
def readPair (toString : List UInt8 → JSString) (x : JSString) : JSString × JSString :=
  let x := replacePlus x
  match x.idxOf? equals with
  | some idx => (unescape toString (x.take idx) false, unescape toString (x.drop (idx + 1)) false)
  | none => (unescape toString x false, [])

/-- What `parse` does with a key and a value; `keys` are those that it has read. -/
def addPair (state : Obj × List JSString) (pair : JSString × JSString) : Obj × List JSString :=
  let (k, v) := pair
  if k ∉ state.2 then (state.1.assign k (.primitive (.string v)), state.2 ++ [k])
  else
    match state.1.get k with
    | some (.array items) => (state.1.assign k (.array (items ++ [.string v])), state.2)
    | some (.primitive value) => (state.1.assign k (.array [value, .string v]), state.2)
    -- `__proto__`
    | none => state

/-- `maxKeys`, if there is no option -/
def maxKeys : Nat := 1000

/-- `QueryString.parse`, of a string -/
def parse (toString : List UInt8 → JSString) (qs : JSString) : Obj :=
  if qs = [] then .empty
  else
    ((((qs.splitOn ampersand).take maxKeys).map (readPair toString)).foldl addPair (.empty, [])).1

/-! ## Any separators -/

/-- `stringify` of an array, with `sep` -/
def stringifyItemsWith (sep ks : JSString) : List Primitive → JSString
  | [] => []
  | item :: rest =>
    ks ++ escape (stringifyPrimitive item) ++ (if rest ≠ [] then sep else []) ++
      stringifyItemsWith sep ks rest

/-- `stringify` of a value, with `sep` -/
def stringifyValueWith (sep ks : JSString) (last : Bool) : Value → JSString
  | .array items => stringifyItemsWith sep ks items ++ if items ≠ [] ∧ ¬last then sep else []
  | .primitive value => ks ++ escape (stringifyPrimitive value) ++ if ¬last then sep else []

/-- `stringify` of the keys, with `sep` and `eq` -/
def stringifyEntriesWith (sep eq : JSString) : List (JSString × Value) → JSString
  | [] => []
  | entry :: rest =>
    stringifyValueWith sep (escape entry.1 ++ eq) rest.isEmpty entry.2 ++
      stringifyEntriesWith sep eq rest

/-- `QueryString.stringify(obj, sep, eq)` -/
def stringifyWith (sep eq : JSString) (obj : Obj) : JSString :=
  stringifyEntriesWith sep eq obj.entries

/-- `split(sep)`, for so many cuts -/
def split (sep : JSString) : Nat → JSString → List JSString
  | 0, l => [l]
  | cuts + 1, l =>
    match indexOf sep l with
    | none => [l]
    | some i => l.take i :: split sep cuts (l.drop (i + sep.length))

/-- The key and the value of a pair, with `eq` -/
def readPairWith (toString : List UInt8 → JSString) (eq x : JSString) : JSString × JSString :=
  let x := replacePlus x
  match indexOf eq x with
  | some idx => (unescape toString (x.take idx) false, unescape toString (x.drop (idx + 1)) false)
  | none => (unescape toString x false, [])

/-- `QueryString.parse(qs, sep, eq)` -/
def parseWith (toString : List UInt8 → JSString) (sep eq qs : JSString) : Obj :=
  if qs = [] then .empty
  else
    ((((split sep qs.length qs).take maxKeys).map (readPairWith toString eq)).foldl addPair
      (.empty, [])).1

theorem stringify_eq (obj : Obj) : stringify obj = stringifyWith [ampersand] [equals] obj := by
  have items (ks : JSString) (items : List Primitive) :
      stringifyItems ks items = stringifyItemsWith [ampersand] ks items := by
    induction items with
    | nil => rfl
    | cons item items ih => rw [stringifyItems, stringifyItemsWith, ih]
  have entries (entries : List (JSString × Value)) :
      stringifyEntries entries = stringifyEntriesWith [ampersand] [equals] entries := by
    induction entries with
    | nil => rfl
    | cons entry entries ih =>
      rw [stringifyEntries, stringifyEntriesWith, ih]
      cases entry.2 with
      | primitive => rfl
      | array => rw [stringifyValue, stringifyValueWith, items]
  exact entries obj.entries

theorem indexOf_singleton (a : UInt16) (l : JSString) : indexOf [a] l = l.idxOf? a := by
  induction l with
  | nil => rfl
  | cons c l ih =>
    rw [indexOf, ih, List.idxOf?_cons]
    by_cases same : c = a <;> simp [same, cons_prefix_cons, eq_comm (a := a)]

theorem split_singleton (a : UInt16) (l : JSString) {cuts : Nat} (enough : l.length ≤ cuts) :
    split [a] cuts l = l.splitOn a := by
  induction l generalizing cuts with
  | nil => cases cuts <;> simp [split, indexOf]
  | cons c l ih =>
    obtain ⟨cuts, rfl⟩ : ∃ n, cuts = n + 1 := ⟨cuts - 1, by rw [length_cons] at enough; omega⟩
    rw [length_cons] at enough
    rw [splitOn_cons_eq_if_modifyHead]
    by_cases same : c = a
    · subst same
      rw [split, indexOf, if_pos (by simp)]
      simp [@ih cuts (by omega)]
    have rest := @ih (cuts + 1) (by omega)
    have other : ¬[a] <+: c :: l := fun begins => same (cons_prefix_cons.mp begins).1.symm
    rw [split] at rest ⊢
    rw [indexOf, if_neg other, if_neg (by simpa using same), ← rest]
    cases found : indexOf [a] l with
    | none => rfl
    | some i => simp

theorem parse_eq (toString : List UInt8 → JSString) (qs : JSString) :
    parse toString qs = parseWith toString [ampersand] [equals] qs := by
  have read : readPairWith toString [equals] = readPair toString := by
    funext x
    simp only [readPairWith, readPair, indexOf_singleton]
  rw [parse, parseWith, split_singleton ampersand qs (Nat.le_refl _), read]

/-! ## What is written -/

/-- The values of one key -/
def Value.items : Value → List Primitive
  | .array items => items
  | .primitive value => [value]

/-- A pair, as it is written -/
def pair (eq k : JSString) (item : Primitive) : JSString :=
  escape k ++ eq ++ escape (stringifyPrimitive item)

/-- The pairs of an entry -/
def pairs (eq : JSString) (entry : JSString × Value) : List JSString :=
  entry.2.items.map (pair eq entry.1)

variable {k : JSString} {v : Value} {entries : List (JSString × Value)}
variable {x s sep eq : JSString} {c : UInt16} {items : List Primitive}

theorem intercalate_append {first second : List JSString} (some_ : first ≠ [])
    (more : second ≠ []) :
    sep.intercalate (first ++ second) = sep.intercalate first ++ sep ++ sep.intercalate second := by
  induction first with
  | nil => exact absurd rfl some_
  | cons x first ih =>
    by_cases alone : first = []
    · subst alone
      rw [singleton_append, intercalate_cons_of_ne_nil more, intercalate_singleton]
    rw [cons_append, intercalate_cons_of_ne_nil (append_ne_nil_of_left_ne_nil alone _),
      ih alone, intercalate_cons_of_ne_nil alone]
    simp only [append_assoc]

theorem stringifyItemsWith_eq (sep eq k : JSString) (items : List Primitive) :
    stringifyItemsWith sep (escape k ++ eq) items = sep.intercalate (items.map (pair eq k)) := by
  induction items with
  | nil => rfl
  | cons item items ih =>
    rw [stringifyItemsWith, ih]
    cases items with
    | nil => simp [pair]
    | cons => simp [pair]

theorem stringifyValueWith_eq (sep eq k : JSString) (last : Bool) (v : Value) :
    stringifyValueWith sep (escape k ++ eq) last v =
      sep.intercalate (pairs eq (k, v)) ++ if v.items ≠ [] ∧ ¬last then sep else [] := by
  cases v with
  | primitive => simp [stringifyValueWith, pairs, Value.items, pair]
  | array =>
    rw [stringifyValueWith, stringifyItemsWith_eq]
    rfl

theorem pairs_eq_nil : pairs eq (k, v) = [] ↔ v.items = [] := by rw [pairs, map_eq_nil_iff]

/-- Is the last value an empty array? -/
def endsEmpty (entries : List (JSString × Value)) : Bool :=
  entries.getLast?.any fun last => last.2.items.isEmpty

theorem endsEmpty_of_nil (last : entries ≠ []) (none_ : entries.flatMap (pairs eq) = []) :
    endsEmpty entries = true := by
  rw [endsEmpty, List.getLast?_eq_some_getLast last, any_some, List.isEmpty_iff]
  exact pairs_eq_nil.mp (flatMap_eq_nil_iff.mp none_ _ (getLast_mem last))

/-- What is written for some entries: their pairs, with a separator behind them if the last value is
an empty array, and there are any -/
theorem stringifyEntriesWith_eq (sep eq : JSString) (entries : List (JSString × Value)) :
    stringifyEntriesWith sep eq entries = sep.intercalate (entries.flatMap (pairs eq)) ++
        if entries.flatMap (pairs eq) ≠ [] ∧ endsEmpty entries = true then sep else [] := by
  induction entries with
  | nil => rfl
  | cons entry entries ih =>
    obtain ⟨k, v⟩ := entry
    rw [stringifyEntriesWith, ih, stringifyValueWith_eq, flatMap_cons]
    have here : pairs eq (k, v) = [] ↔ v.items = [] := pairs_eq_nil
    by_cases last : entries = []
    · subst last
      by_cases empty : v.items = [] <;> simp [endsEmpty, empty, here]
    have more : entries.isEmpty = false := by simpa using last
    have ends : endsEmpty ((k, v) :: entries) = endsEmpty entries := by
      rw [endsEmpty, List.getLast?_cons_of_ne_nil last, endsEmpty]
    rw [ends]
    by_cases empty : v.items = []
    · rw [here.mpr empty]
      simp [empty]
    by_cases rest : entries.flatMap (pairs eq) = []
    · simp [rest, here, empty, more, endsEmpty_of_nil last rest]
    rw [intercalate_append (mt here.mp empty) rest]
    simp [rest, empty, more]

theorem stringifyWith_eq {obj : Obj} (filled : ∀ entry ∈ obj.entries, entry.2.items ≠ []) :
    stringifyWith sep eq obj = sep.intercalate (obj.entries.flatMap (pairs eq)) := by
  rw [stringifyWith, stringifyEntriesWith_eq, if_neg, append_nil]
  rintro ⟨-, empty⟩
  rw [endsEmpty] at empty
  cases last : obj.entries.getLast? with
  | none => simp [last] at empty
  | some entry =>
    rw [last, any_some, List.isEmpty_iff] at empty
    exact filled entry (mem_of_getLast? last) empty

/-- There is one field for each value, with single separators between them, unless an empty array
comes last, and there are fields before it. -/
theorem stringifyWith_fields_iff (sep eq : JSString) (some_ : sep ≠ []) (obj : Obj) :
    stringifyWith sep eq obj = sep.intercalate (obj.entries.flatMap (pairs eq)) ↔
      obj.entries.flatMap (fun entry => entry.2.items) = [] ∨
        ∀ last ∈ obj.entries.getLast?, last.2.items ≠ [] := by
  have none_ : obj.entries.flatMap (pairs eq) = [] ↔
      obj.entries.flatMap (fun entry => entry.2.items) = [] := by
    simp only [flatMap_eq_nil_iff]
    exact forall₂_congr fun entry _ => pairs_eq_nil
  have last : (∀ last ∈ obj.entries.getLast?, last.2.items ≠ []) ↔
      endsEmpty obj.entries = false := by
    rw [endsEmpty]
    cases obj.entries.getLast? <;> simp
  rw [stringifyWith, stringifyEntriesWith_eq, append_right_eq_self, ← none_, last]
  split_ifs with trailing
  · simp [some_, trailing.1, trailing.2]
  rw [not_and_or, not_not, Bool.not_eq_true] at trailing
  exact iff_of_true rfl trailing

/-! ## Reading it -/

/-- A well-formed string -/
def WellFormed (s : JSString) : Prop := ∃ text : List Char, s = utf16Encode text

/-- Separators: they are no characters of an escaped text, and do not contain each other. -/
structure Separators (sep eq : JSString) : Prop where
  sep_ne_nil : sep ≠ []
  eq_ne_nil : eq ≠ []
  sep_special : ∀ c ∈ sep, isEscaped c = false ∧ c ≠ unit '+'
  eq_special : ∀ c ∈ eq, isEscaped c = false ∧ c ≠ unit '+'
  sep_apart : ¬sep <:+: eq
  eq_apart : ¬eq <:+: sep

theorem replacePlus_of_not_mem (none : unit '+' ∉ x) : replacePlus x = x := by
  induction x with
  | nil => rfl
  | cons c x ih =>
    rw [mem_cons, not_or] at none
    have rest := ih none.2
    rw [replacePlus] at rest ⊢
    rw [flatMap_cons, rest, if_neg fun same => none.1 same.symm]
    rfl

theorem indexOf_append_of_disjoint {part : JSString} (filled : part ≠ []) (rest : JSString)
    (apart : ∀ c ∈ x, c ∉ part) : indexOf part (x ++ rest) = (indexOf part rest).map
      (x.length + ·) := by
  induction x with
  | nil => cases found : indexOf part rest <;> simp [found]
  | cons c x ih =>
    obtain ⟨here, apart⟩ := forall_mem_cons.mp apart
    have other : ¬part <+: c :: (x ++ rest) := by
      intro begins
      obtain ⟨d, part, rfl⟩ := exists_cons_of_ne_nil filled
      exact here ((cons_prefix_cons.mp begins).1 ▸ mem_cons_self)
    rw [cons_append, indexOf, if_neg other, ih apart, Option.map_map]
    refine congrArg (fun f => (indexOf part rest).map f) (funext fun i => ?_)
    simp only [Function.comp, length_cons]
    omega

theorem indexOf_self {part : JSString} (filled : part ≠ []) (rest : JSString) :
    indexOf part (part ++ rest) = some 0 := by
  obtain ⟨c, part, rfl⟩ := exists_cons_of_ne_nil filled
  exact if_pos (prefix_append _ _)

theorem indexOf_of_disjoint {part : JSString} (filled : part ≠ []) (apart : ∀ c ∈ x, c ∉ part) :
    indexOf part x = none := by
  have whole := indexOf_append_of_disjoint filled [] apart
  rwa [append_nil, indexOf, if_neg filled] at whole

theorem split_intercalate {parts : List JSString} (filled : sep ≠ []) (some_ : parts ≠ [])
    (apart : ∀ part ∈ parts, ∀ c ∈ part, c ∉ sep) {cuts : Nat} (enough : parts.length ≤ cuts + 1) :
    split sep cuts (sep.intercalate parts) = parts := by
  induction parts generalizing cuts with
  | nil => exact absurd rfl some_
  | cons part parts ih =>
    obtain ⟨here, apart⟩ := forall_mem_cons.mp apart
    by_cases last : parts = []
    · subst last
      rw [intercalate_singleton]
      cases cuts with
      | zero => rfl
      | succ cuts => rw [split, indexOf_of_disjoint filled here]
    have length := length_pos_iff.mpr last
    rw [length_cons] at enough
    obtain ⟨cuts, rfl⟩ : ∃ n, cuts = n + 1 := ⟨cuts - 1, by omega⟩
    rw [intercalate_cons_of_ne_nil last, split, append_assoc,
      indexOf_append_of_disjoint filled _ here, indexOf_self filled]
    have behind : (part ++ (sep ++ sep.intercalate parts)).drop (part.length + sep.length) =
        sep.intercalate parts := by
      rw [← append_assoc, ← length_append, drop_left]
    simp only [map_some, Nat.add_zero, take_left, behind]
    rw [ih last apart (by omega)]

theorem notMem_escape (other : isEscaped c = false) : c ∉ escape s := by
  intro mem
  rw [isEscaped_of_mem_escape mem] at other
  cases other

theorem escape_apart {part : JSString} (special : ∀ c ∈ part, isEscaped c = false ∧ c ≠ unit '+') :
    ∀ c ∈ escape s, c ∉ part :=
  fun _ mem inside => notMem_escape (special _ inside).1 mem

variable (toString : List UInt8 → JSString)

/-- What `decodeURIComponent` makes of a text, with as many steps as there may have to be -/
def Decodes (l decoded : JSString) : Prop := ∀ steps, l.length ≤ steps →
    decodeFrom steps l = some decoded

theorem Decodes.plain {l r decoded : JSString} (decodes : Decodes r decoded)
    (special : ∀ c ∈ l, isEscaped c = false ∧ c ≠ unit '+') : Decodes (l ++ r) (l ++ decoded) := by
  induction l with
  | nil => exact decodes
  | cons c l ih =>
    obtain ⟨here, special⟩ := forall_mem_cons.mp special
    have plain : c ≠ percent := by
      rintro rfl
      exact absurd here.1 (by decide)
    intro steps le
    rw [cons_append, length_cons] at le
    obtain ⟨steps, rfl⟩ : ∃ n, steps = n + 1 := ⟨steps - 1, by omega⟩
    rw [cons_append, decodeFrom, if_pos plain, ih special steps (by omega)]
    rfl

theorem WellFormed.repaired (formed : WellFormed s) : utf16Encode (repaired s) = s := by
  obtain ⟨text, rfl⟩ := formed
  rw [repaired_utf16Encode]

/-- What has been escaped is read as the text that `escape` took it for. -/
theorem Decodes.repaired {r decoded : JSString} (decodes : Decodes r decoded) (s : JSString) :
    Decodes (escape s ++ r) (utf16Encode (repaired s) ++ decoded) := by
  rw [escape_eq]
  generalize QueryString.repaired s = text
  induction text with
  | nil => exact decodes
  | cons c text ih =>
    intro steps le
    have here := (escaped_escaped c).length_pos
    rw [flatMap_cons, append_assoc, length_append] at le
    obtain ⟨steps, rfl⟩ : ∃ n, steps = n + 1 := ⟨steps - 1, by omega⟩
    rw [flatMap_cons, append_assoc, (escaped_escaped c).decodeFrom, ih steps (by omega),
      utf16Encode_cons, map_some, append_assoc]

theorem Decodes.escape {r decoded : JSString} (decodes : Decodes r decoded)
    (formed : WellFormed s) :
    Decodes (escape s ++ r) (s ++ decoded) := by
  have read := decodes.repaired s
  rwa [formed.repaired] at read

theorem decodes_nil : Decodes [] [] := fun steps _ => by cases steps <;> rfl

theorem Decodes.unescape {l decoded : JSString} (decodes : Decodes l decoded) :
    unescape toString l false = decoded := by
  rw [QueryString.unescape, decodeURIComponent, decodes _ (Nat.le_refl _)]

section

variable (separators : Separators sep eq)
include separators

theorem plus_notMem_pair {item : Primitive} : unit '+' ∉ pair eq k item := by
  rw [pair, mem_append, mem_append, not_or, not_or]
  exact ⟨⟨notMem_escape (by decide), fun mem => (separators.eq_special _ mem).2 rfl⟩,
    notMem_escape (by decide)⟩

theorem readPairWith_key (k : JSString) (item : Primitive) :
    readPairWith toString eq (pair eq k item) = (utf16Encode (repaired k),
      unescape toString (eq.drop 1 ++ escape (stringifyPrimitive item)) false) := by
  have found : indexOf eq (pair eq k item) = some (escape k).length := by
    rw [pair, append_assoc,
      indexOf_append_of_disjoint separators.eq_ne_nil _ (escape_apart separators.eq_special),
      indexOf_self separators.eq_ne_nil]
    rfl
  have rest : (pair eq k item).drop ((escape k).length + 1) =
      eq.drop 1 ++ escape (stringifyPrimitive item) := by
    rw [pair, append_assoc, ← drop_drop, drop_left,
      drop_append_of_le_length (length_pos_iff.mpr separators.eq_ne_nil)]
  have front : unescape toString (escape k) false = utf16Encode (repaired k) := by
    simpa using (decodes_nil.repaired k).unescape toString
  rw [readPairWith, replacePlus_of_not_mem (plus_notMem_pair separators), found]
  simp only [rest]
  rw [pair, append_assoc, take_left, front]

theorem readPairWith_pair (key : WellFormed k) (value : WellFormed s) :
    readPairWith toString eq (pair eq k (.string s)) = (k, eq.drop 1 ++ s) := by
  have decodes := (decodes_nil.escape value).plain (l := eq.drop 1)
    fun c mem => separators.eq_special c (mem_of_mem_drop mem)
  rw [readPairWith_key toString separators, key.repaired, stringifyPrimitive]
  simpa using decodes.unescape toString

end

/-! ## Building the object -/

/-- An object that `parse` can build: its values are strings, and arrays of two strings or more -/
inductive Plain : Value → Prop where
  | string (s : JSString) : Plain (.primitive (.string s))
  | array (s s' : JSString) (rest : List JSString) :
      Plain (.array (.string s :: .string s' :: rest.map .string))

theorem entries_assign {obj : Obj} (other : k ≠ js "__proto__") :
    (obj.assign k v).entries = setEntries k v obj.entries := by
  rw [Obj.assign, if_neg other]
  rfl

/-- What `parse` has built of some entries -/
structure Built (entries : List (JSString × Value)) (state : Obj × List JSString) : Prop where
  built : state.1.entries = entries
  keys : state.2 = entries.map Prod.fst

variable {state : Obj × List JSString}

theorem Built.first (built : Built entries state) (new : k ∉ entries.map Prod.fst)
    (other : k ≠ js "__proto__") (s : JSString) :
    Built (entries ++ [(k, .primitive (.string s))]) (addPair state (k, s)) := by
  have fresh : k ∉ state.2 := by rwa [built.keys]
  have added : addPair state (k, s) =
      (state.1.assign k (.primitive (.string s)), state.2 ++ [k]) := if_pos fresh
  rw [added]
  constructor
  · have set := setEntries_append (v := .primitive (.string s)) new []
    rw [append_nil] at set
    rw [entries_assign other, built.built, set]
    rfl
  rw [built.keys, map_append]
  rfl

section

variable (built : Built (entries ++ [(k, v)]) state)
include built

theorem Built.next {v' : Value} (new : k ∉ entries.map Prod.fst) (other : k ≠ js "__proto__")
    (more : addPair state (k, s) = (state.1.assign k v', state.2)) :
    Built (entries ++ [(k, v')]) (addPair state (k, s)) := by
  rw [more]
  constructor
  · rw [entries_assign other, built.built, setEntries_append new, setEntries, if_pos rfl]
  rw [built.keys, map_append, map_append]
  rfl

theorem Built.known : ¬k ∉ state.2 := by
  rw [built.keys, map_append]
  exact not_not_intro (mem_append_right _ mem_cons_self)

theorem Built.get (new : k ∉ entries.map Prod.fst) : state.1.get k = some v := by
  rw [Properties.get, built.built, lookup_append_cons new]

end

theorem Built.push (built : Built (entries ++ [(k, .array items)]) state)
    (new : k ∉ entries.map Prod.fst) (other : k ≠ js "__proto__") (s : JSString) :
    Built (entries ++ [(k, .array (items ++ [.string s]))]) (addPair state (k, s)) := by
  refine built.next new other ?_
  rw [addPair]
  simp only [if_neg built.known, built.get new]

theorem Built.promote {value : Primitive} (built : Built (entries ++ [(k, .primitive value)]) state)
    (new : k ∉ entries.map Prod.fst) (other : k ≠ js "__proto__") (s : JSString) :
    Built (entries ++ [(k, .array [value, .string s])]) (addPair state (k, s)) := by
  refine built.next new other ?_
  rw [addPair]
  simp only [if_neg built.known, built.get new]

theorem Built.pushes
    (built : Built (entries ++ [(k, .array items)]) state) (new : k ∉ entries.map Prod.fst)
    (other : k ≠ js "__proto__") (rest : List JSString) :
    Built (entries ++ [(k, .array (items ++ rest.map .string))])
      ((rest.map fun s => (k, s)).foldl addPair state) := by
  induction rest generalizing items state with
  | nil =>
    rw [map_nil, append_nil]
    exact built
  | cons s rest ih =>
    have pushed := ih (built.push new other s)
    rw [append_assoc] at pushed
    exact pushed

def Value.strings : Value → List JSString := fun v => v.items.map stringifyPrimitive

theorem Built.entry (built : Built entries state) (new : k ∉ entries.map Prod.fst)
    (other : k ≠ js "__proto__") (plain : Plain v) :
    Built (entries ++ [(k, v)]) ((v.strings.map fun s => (k, s)).foldl addPair state) := by
  cases plain with
  | string s => exact built.first new other s
  | array s s' rest =>
    have begun := (built.first new other s).promote new other s'
    have all := begun.pushes new other rest
    have strings : Value.strings (.array (.string s :: .string s' :: rest.map .string)) =
        s :: s' :: rest := by
      simp only [Value.strings, Value.items, map_cons, List.map_map, stringifyPrimitive]
      refine congrArg (fun rest => s :: s' :: rest) ?_
      exact List.map_id rest
    rw [strings]
    exact all

/-- An object that `stringify` writes so that `parse` reads it -/
structure Parsable (obj : Obj) : Prop where
  keys : ∀ entry ∈ obj.entries, WellFormed entry.1 ∧ entry.1 ≠ js "__proto__"
  values : ∀ entry ∈ obj.entries, Plain entry.2 ∧ ∀ s ∈ entry.2.strings, WellFormed s
  count : (obj.entries.flatMap fun entry => entry.2.items).length ≤ maxKeys

theorem Plain.items_ne_nil (plain : Plain v) : v.items ≠ [] := by
  cases plain with
  | string | array => exact cons_ne_nil _ _

theorem Plain.items_eq (plain : Plain v) : v.items = v.strings.map .string := by
  cases plain with
  | string s => rfl
  | array s s' rest =>
    have id : (rest.map Primitive.string).map stringifyPrimitive = rest := by
      rw [List.map_map]
      exact List.map_id rest
    simp only [Value.strings, Value.items, map_cons, id, stringifyPrimitive]

theorem map_readPairWith_pairs (separators : Separators sep eq) (single : eq.length = 1)
    (key : WellFormed k) (plain : Plain v) (formed : ∀ s ∈ v.strings, WellFormed s) :
    (pairs eq (k, v)).map (readPairWith toString eq) = v.strings.map fun s => (k, s) := by
  rw [pairs]
  simp only [plain.items_eq]
  rw [List.map_map, List.map_map]
  refine map_congr_left fun s mem => ?_
  have read := readPairWith_pair toString separators key (formed s mem)
  rwa [drop_eq_nil_of_le (Nat.le_of_eq single), nil_append] at read

theorem Built.all {before : List (JSString × Value)} (built : Built before state)
    (nodup : ((before ++ entries).map Prod.fst).Nodup)
    (keys : ∀ entry ∈ entries, WellFormed entry.1 ∧ entry.1 ≠ js "__proto__")
    (values : ∀ entry ∈ entries, Plain entry.2 ∧ ∀ s ∈ entry.2.strings, WellFormed s) :
    Built (before ++ entries)
      ((entries.flatMap fun entry => entry.2.strings.map fun s => (entry.1, s)).foldl addPair
        state) := by
  induction entries generalizing before state with
  | nil =>
    rw [append_nil]
    exact built
  | cons entry entries ih =>
    obtain ⟨k, v⟩ := entry
    obtain ⟨⟨key, other⟩, keys⟩ := forall_mem_cons.mp keys
    obtain ⟨⟨plain, formed⟩, values⟩ := forall_mem_cons.mp values
    have new : k ∉ before.map Prod.fst := by
      rw [map_append, nodup_append'] at nodup
      exact fun mem => nodup.2.2 mem mem_cons_self
    have one := built.entry new other plain
    have split : before ++ (k, v) :: entries = (before ++ [(k, v)]) ++ entries := by
      rw [append_assoc, singleton_append]
    rw [split] at nodup ⊢
    rw [flatMap_cons, foldl_append]
    exact ih one nodup keys values

theorem exists_pair_of_mem (mem : x ∈ entries.flatMap (pairs eq)) :
    ∃ entry ∈ entries, ∃ item ∈ entry.2.items, x = pair eq entry.1 item := by
  obtain ⟨entry, entry_mem, here⟩ := mem_flatMap.mp mem
  obtain ⟨item, item_mem, rfl⟩ := List.mem_map.mp here
  exact ⟨entry, entry_mem, item, item_mem, rfl⟩

theorem Parsable.written {obj : Obj} (parsable : Parsable obj) :
    stringifyWith sep eq obj = sep.intercalate (obj.entries.flatMap (pairs eq)) :=
  stringifyWith_eq fun entry mem => (parsable.values entry mem).1.items_ne_nil

theorem length_le_length_intercalate (filled : sep ≠ []) (parts : List JSString) :
    parts.length ≤ (sep.intercalate parts).length + 1 := by
  induction parts with
  | nil => exact Nat.zero_le _
  | cons part parts ih =>
    have := length_pos_iff.mpr filled
    by_cases last : parts = []
    · simp [last]
    rw [intercalate_cons_of_ne_nil last, length_append, length_append, length_cons]
    omega

section

variable (separators : Separators sep eq) (single : eq.length = 1)
include separators single

theorem pairs_apart : ∀ x ∈ entries.flatMap (pairs eq), ∀ c ∈ x, c ∉ sep := by
  obtain ⟨e, rfl⟩ := length_eq_one_iff.mp single
  intro x mem c inside
  obtain ⟨entry, -, item, -, rfl⟩ := exists_pair_of_mem mem
  rcases mem_append.mp inside with inside | inside
  · rcases mem_append.mp inside with inside | inside
    · exact escape_apart separators.sep_special c inside
    obtain rfl := mem_singleton.mp inside
    intro mem'
    obtain ⟨before, behind, rfl⟩ := append_of_mem mem'
    exact separators.eq_apart ⟨before, behind, by simp⟩
  · exact escape_apart separators.sep_special c inside

theorem parseWith_pairs (entries : List (JSString × Value)) :
    parseWith toString sep eq (sep.intercalate (entries.flatMap (pairs eq))) =
      ((((entries.flatMap (pairs eq)).take maxKeys).map (readPairWith toString eq)).foldl addPair
        (.empty, [])).1 := by
  have apart : ∀ x ∈ entries.flatMap (pairs eq), ∀ c ∈ x, c ∉ sep := pairs_apart separators single
  by_cases none_ : entries.flatMap (pairs eq) = []
  · rw [none_]
    rfl
  have cut := split_intercalate separators.sep_ne_nil none_ apart
    (length_le_length_intercalate separators.sep_ne_nil _)
  have notEmpty : sep.intercalate (entries.flatMap (pairs eq)) ≠ [] := by
    intro nil
    have alone : split sep 0 [] = entries.flatMap (pairs eq) := by
      rw [nil] at cut
      exact cut
    have mem : [] ∈ entries.flatMap (pairs eq) := alone ▸ mem_singleton_self _
    obtain ⟨entry, -, item, -, same⟩ := exists_pair_of_mem mem
    simp [pair, separators.eq_ne_nil] at same
  rw [parseWith, if_neg notEmpty, cut]

theorem parseWith_stringifyWith {obj : Obj}
    (parsable : Parsable obj) : parseWith toString sep eq (stringifyWith sep eq obj) = obj := by
  have few : (obj.entries.flatMap (pairs eq)).length ≤ maxKeys := by
    refine Nat.le_trans (Nat.le_of_eq ?_) parsable.count
    simp only [length_flatMap, pairs, length_map]
  have begun : Built [] (Properties.empty, []) := ⟨rfl, rfl⟩
  have built := begun.all obj.nodup parsable.keys parsable.values
  have read : (obj.entries.flatMap (pairs eq)).map (readPairWith toString eq) =
      obj.entries.flatMap fun entry => entry.2.strings.map fun s => (entry.1, s) := by
    rw [map_flatMap]
    refine flatMap_congr fun entry mem => ?_
    exact map_readPairWith_pairs toString separators single (parsable.keys entry mem).1
      (parsable.values entry mem).1 (parsable.values entry mem).2
  rw [parsable.written, parseWith_pairs toString separators single, take_of_length_le few, read]
  exact Properties.ext built.built

end

/-! ## The keys that are read -/

theorem mem_keys_assign {obj : Obj} {k' : JSString} (other : k ≠ js "__proto__") :
    k' ∈ (obj.assign k v).keys ↔ k' = k ∨ k' ∈ obj.keys := by
  rw [Obj.assign, if_neg other]
  exact Properties.mem_keys_setEntries

/-- The keys of the object that `parse` builds are those that it has read, but for `__proto__`. -/
def Known (state : Obj × List JSString) : Prop :=
  ∀ k, k ∈ state.1.keys ↔ k ∈ state.2 ∧ k ≠ js "__proto__"

/-- A key that has been read has its value changed, and the others stay. -/
theorem Known.assign (known : Known state) (old : k ∈ state.2) :
    Known (state.1.assign k v, state.2) := by
  intro k'
  by_cases proto : k = js "__proto__"
  · rw [Obj.assign, if_pos proto]
    exact known k'
  rw [mem_keys_assign proto, known k', or_iff_right_of_imp]
  rintro rfl
  exact ⟨old, proto⟩

theorem Known.addPair (known : Known state) (pair : JSString × JSString) :
    Known (addPair state pair) ∧
      ∀ k, k ∈ (QueryString.addPair state pair).2 ↔ k = pair.1 ∨ k ∈ state.2 := by
  obtain ⟨k, s⟩ := pair
  by_cases new : k ∉ state.2
  · rw [QueryString.addPair, if_pos new]
    have read (k' : JSString) : k' ∈ state.2 ++ [k] ↔ k' = k ∨ k' ∈ state.2 := by
      rw [mem_append, mem_singleton, or_comm]
    refine ⟨fun k' => ?_, read⟩
    rw [read, or_and_right, ← known k']
    by_cases proto : k = js "__proto__"
    · rw [Obj.assign, if_pos proto, proto, or_iff_right fun both => both.2 both.1]
    rw [mem_keys_assign proto, and_iff_left_of_imp]
    rintro rfl
    exact proto
  have old : k ∈ state.2 := not_not.mp new
  have same (k' : JSString) : k' ∈ state.2 ↔ k' = k ∨ k' ∈ state.2 :=
    (or_iff_right_of_imp fun here => here ▸ old).symm
  rw [QueryString.addPair, if_neg new]
  split
  · exact ⟨known.assign old, same⟩
  · exact ⟨known.assign old, same⟩
  · exact ⟨known, same⟩

/-- The keys of the object that all pairs make -/
theorem Known.foldl (known : Known state) (read : List (JSString × JSString)) :
    k ∈ (read.foldl QueryString.addPair state).1.keys ↔
      (k ∈ read.map Prod.fst ∨ k ∈ state.2) ∧ k ≠ js "__proto__" := by
  induction read generalizing state with
  | nil =>
    rw [map_nil, or_iff_right not_mem_nil]
    exact known k
  | cons pair read ih =>
    obtain ⟨next, keys⟩ := known.addPair pair
    rw [foldl_cons, ih next, keys, map_cons, mem_cons]
    tauto

/-- The keys of the fields that `parse` reads -/
def readKeys (entries : List (JSString × Value)) : List JSString :=
  (entries.flatMap fun entry => entry.2.items.map fun _ => entry.1).take maxKeys

theorem mem_keys_parseWith (separators : Separators sep eq) (single : eq.length = 1) :
    k ∈ (parseWith toString sep eq (sep.intercalate (entries.flatMap (pairs eq)))).keys ↔
      k ∈ (readKeys entries).map (fun key => utf16Encode (repaired key)) ∧ k ≠ js "__proto__" := by
  have known : Known (Properties.empty, []) := fun k => by simp [Properties.empty, Properties.keys]
  have read (key : JSString) : Prod.fst ∘ readPairWith toString eq ∘ pair eq key =
      fun _ => utf16Encode (repaired key) :=
    funext fun item => congrArg Prod.fst (readPairWith_key toString separators key item)
  have keys : (((entries.flatMap (pairs eq)).take maxKeys).map (readPairWith toString eq)).map
      Prod.fst = (readKeys entries).map fun key => utf16Encode (repaired key) := by
    rw [readKeys, map_take, map_take, map_take, List.map_map, map_flatMap, map_flatMap]
    refine congrArg (List.take maxKeys) (flatMap_congr fun entry _ => ?_)
    rw [pairs, List.map_map, List.map_map, Function.comp_assoc, read]
    rfl
  rw [parseWith_pairs toString separators single, known.foldl, keys, or_iff_left not_mem_nil]

theorem mem_keys_of_readKeys {obj : Obj} (mem : k ∈ readKeys obj.entries) : k ∈ obj.keys := by
  obtain ⟨entry, here, inside⟩ := mem_flatMap.mp (mem_of_mem_take mem)
  obtain ⟨item, -, rfl⟩ := List.mem_map.mp inside
  exact List.mem_map_of_mem here

theorem eq_proto_of_repaired (proto : utf16Encode (repaired k) = js "__proto__") :
    k = js "__proto__" := by
  have plain : ∀ c ∈ js "__proto__", c < 0xD800 :=
    @of_decide_eq_true _ (List.decidableBAll _ _) (by decide)
  rw [← proto, utf16Encode_repaired (proto ▸ plain)]

theorem separators_default : Separators [ampersand] [equals] :=
  ⟨by decide, by decide, @of_decide_eq_true _ (List.decidableBAll _ _) (by decide),
    @of_decide_eq_true _ (List.decidableBAll _ _) (by decide), by decide, by decide⟩

/-- **When `stringify` writes one field for each value**, and nothing from which `parse` makes a key
that is not one of the object: unless an empty array comes last, and there are fields before it, or
the key of a field that is read has a lone surrogate, and is no key any more when `escape` has taken
the unit behind it for the second half of a pair. -/
theorem stringify_fields_iff (obj : Obj) :
    (stringify obj = [ampersand].intercalate (obj.entries.flatMap (pairs [equals])) ∧
        ∀ (toString : List UInt8 → JSString), ∀ k ∈ (parse toString (stringify obj)).keys,
          k ∈ obj.keys) ↔
      (obj.entries.flatMap (fun entry => entry.2.items) = [] ∨
        ∀ last ∈ obj.entries.getLast?, last.2.items ≠ []) ∧
      ∀ key ∈ readKeys obj.entries, utf16Encode (repaired key) ∈ obj.keys := by
  rw [← stringifyWith_fields_iff [ampersand] [equals] (cons_ne_nil _ _), ← stringify_eq]
  refine and_congr_right fun written => ?_
  have keys (toString : List UInt8 → JSString) (k : JSString) :
      k ∈ (parse toString (stringify obj)).keys ↔
        k ∈ (readKeys obj.entries).map (fun key => utf16Encode (repaired key)) ∧
          k ≠ js "__proto__" := by
    rw [written, parse_eq]
    exact mem_keys_parseWith toString separators_default rfl
  constructor
  · intro read key mem
    by_cases proto : utf16Encode (repaired key) = js "__proto__"
    · rw [proto, ← eq_proto_of_repaired proto]
      exact mem_keys_of_readKeys mem
    exact read (fun _ => []) _ ((keys _ _).mpr ⟨List.mem_map_of_mem mem, proto⟩)
  intro kept toString k mem
  obtain ⟨key, here, rfl⟩ := List.mem_map.mp ((keys toString k).mp mem).1
  exact kept key here

/-- A string, and an empty array behind it -/
theorem not_stringify_fields :
    ¬∀ obj : Obj,
    stringify obj = [ampersand].intercalate (obj.entries.flatMap (pairs [equals])) := by
  intro all
  have written := all ⟨[(js "a", .primitive (.string (js "1"))), (js "b", .array [])], by decide⟩
  exact absurd written (by decide)

/-! ## Separators of more than one character -/

theorem indexOf_append_cases (part front rest : JSString) :
    (∃ i < front.length, indexOf part (front ++ rest) = some i ∧ part <+: (front ++ rest).drop i) ∨
      indexOf part (front ++ rest) = (indexOf part rest).map (front.length + ·) := by
  induction front with
  | nil => exact .inr (by cases found : indexOf part rest <;> simp [found])
  | cons c front ih =>
    by_cases here : part <+: c :: (front ++ rest)
    · exact .inl ⟨0, Nat.zero_lt_succ _, if_pos here, here⟩
    have next : indexOf part (c :: front ++ rest) = (indexOf part (front ++ rest)).map (· + 1) := by
      rw [cons_append, indexOf, if_neg here]
    rcases ih with ⟨i, less, found, begins⟩ | found
    · refine .inl ⟨i + 1, Nat.succ_lt_succ less, ?_, begins⟩
      rw [next, found]
      rfl
    refine .inr ?_
    rw [next, found, Option.map_map]
    refine congrArg (fun f => (indexOf part rest).map f) (funext fun i => ?_)
    simp only [Function.comp, length_cons]
    omega

/-- The field that is read first of a pair, whatever comes behind it -/
inductive FirstField (eq k : JSString) (item : Primitive) : JSString → Prop where
  | whole : FirstField eq k item (pair eq k item)
  /-- a separator begins in `eq` -/
  | cut (o : Nat) (some_ : 0 < o) (less : o < eq.length) :
      FirstField eq k item (escape k ++ eq.take o)

theorem exists_split (separators : Separators sep eq) (k : JSString) (item : Primitive)
    {rest : JSString} (behind : rest = [] ∨ sep <+: rest) {cuts : Nat} (enough : 0 < cuts) :
    ∃ field fields, split sep cuts (pair eq k item ++ rest) = field :: fields ∧
      FirstField eq k item field := by
  obtain ⟨cuts, rfl⟩ := Nat.exists_eq_succ_of_ne_zero enough.ne'
  have later : rest = [] ∧ indexOf sep (escape (stringifyPrimitive item) ++ rest) = none ∨
      indexOf sep (escape (stringifyPrimitive item) ++ rest) =
        some (escape (stringifyPrimitive item)).length := by
    rw [indexOf_append_of_disjoint separators.sep_ne_nil _ (escape_apart separators.sep_special)]
    rcases behind with rfl | ⟨rest, rfl⟩
    · rw [indexOf, if_neg separators.sep_ne_nil]
      exact .inl ⟨rfl, rfl⟩
    rw [indexOf_self separators.sep_ne_nil]
    exact .inr rfl
  have text : pair eq k item ++ rest =
      escape k ++ (eq ++ (escape (stringifyPrimitive item) ++ rest)) := by
    simp only [pair, append_assoc]
  have start : indexOf sep (pair eq k item ++ rest) =
      (indexOf sep (eq ++ (escape (stringifyPrimitive item) ++ rest))).map
        ((escape k).length + ·) := by
    rw [text,
      indexOf_append_of_disjoint separators.sep_ne_nil _ (escape_apart separators.sep_special)]
  rw [split]
  rcases indexOf_append_cases sep eq (escape (stringifyPrimitive item) ++ rest) with
    ⟨o, less, found, begins⟩ | found
  · have some_ : 0 < o := by
      refine Nat.pos_of_ne_zero fun zero => ?_
      rw [zero, drop_zero] at begins
      rcases prefix_or_prefix_of_prefix begins (prefix_append eq _) with within | within
      · exact separators.sep_apart within.isInfix
      · exact separators.eq_apart within.isInfix
    rw [start, found]
    refine ⟨_, _, rfl, ?_⟩
    rw [text, take_length_add_append, take_append_of_le_length less.le]
    exact .cut o some_ less
  rcases later with ⟨rfl, none_⟩ | some_
  · rw [start, found, none_]
    refine ⟨_, _, rfl, ?_⟩
    rw [append_nil]
    exact .whole
  rw [start, found, some_]
  refine ⟨_, _, rfl, ?_⟩
  have whole : (escape k).length + (eq.length + (escape (stringifyPrimitive item)).length) =
      (pair eq k item).length := by
    simp only [pair, length_append]
    omega
  dsimp only
  rw [whole, take_left]
  exact .whole

theorem readPairWith_cut (separators : Separators sep eq) (key : WellFormed k) {o : Nat}
    (less : o < eq.length) :
    readPairWith toString eq (escape k ++ eq.take o) = (k ++ eq.take o, []) := by
  have special : ∀ c ∈ eq.take o, isEscaped c = false ∧ c ≠ unit '+' := fun c mem =>
    separators.eq_special c (mem_of_mem_take mem)
  have plus : unit '+' ∉ escape k ++ eq.take o := by
    rw [mem_append, not_or]
    exact ⟨notMem_escape (by decide), fun mem => (special _ mem).2 rfl⟩
  have missing : indexOf eq (eq.take o) = none := by
    cases found : indexOf eq (eq.take o) with
    | none => rfl
    | some i =>
      have le := indexOf_le found
      rw [length_take] at le
      omega
  have decodes := (decodes_nil.plain special).escape key
  rw [append_nil] at decodes
  rw [readPairWith, replacePlus_of_not_mem plus,
    indexOf_append_of_disjoint separators.eq_ne_nil _ (escape_apart separators.eq_special), missing]
  simp only [map_none]
  rw [decodes.unescape toString]

/-- The first entry of the object that is built -/
def Begun (k s : JSString) (state : Obj × List JSString) : Prop :=
  k ∈ state.2 ∧ ∃ v rest, state.1.entries = (k, v) :: rest ∧ v.items.head? = some (.string s)

theorem Begun.assign {s' : JSString} {state : Obj × List JSString} {known : List JSString}
    (begun : Begun s s' state) (kept : ∀ k ∈ state.2, k ∈ known)
    (same : ∀ v', state.1.get s = some v' → v'.items.head? = some (.string s') →
      k = s → v.items.head? = some (.string s')) :
    Begun s s' (state.1.assign k v, known) := by
  obtain ⟨old, v', rest, entries, first⟩ := begun
  refine ⟨kept s old, ?_⟩
  have get : state.1.get s = some v' := by
    rw [Properties.get, entries]
    exact @lookup_append_cons _ _ _ s v' [] not_mem_nil rest
  by_cases proto : k = js "__proto__"
  · refine ⟨v', rest, ?_, first⟩
    rw [Obj.assign, if_pos proto, entries]
  by_cases here : k = s
  · refine ⟨v, rest, ?_, same v' get first here⟩
    rw [entries_assign proto, entries, setEntries, if_pos here, here]
  refine ⟨v', setEntries k v rest, ?_, first⟩
  rw [entries_assign proto, entries, setEntries, if_neg here]

theorem Begun.addPair (begun : Begun k s state) (pair : JSString × JSString) :
    Begun k s (addPair state pair) := by
  rw [QueryString.addPair]
  split_ifs with old
  · split
    · rename_i items found
      refine begun.assign (fun _ => id) fun v' get first here => ?_
      rw [← here, found] at get
      cases get
      rw [Value.items] at first ⊢
      rw [List.head?_append, first]
      rfl
    · rename_i value found
      refine begun.assign (fun _ => id) fun v' get first here => ?_
      rw [← here, found] at get
      cases get
      exact first
    · exact begun
  exact begun.assign (fun _ => mem_append_left _) fun _ _ _ here => absurd (here ▸ begun.1) old

theorem Begun.foldl (begun : Begun k s state) (read : List (JSString × JSString)) :
    Begun k s (read.foldl QueryString.addPair state) := by
  induction read generalizing state with
  | nil => exact begun
  | cons pair read ih => exact ih (begun.addPair pair)

theorem begun_addPair (other : k ≠ js "__proto__") (s : JSString) :
    Begun k s (addPair (Properties.empty, []) (k, s)) := by
  have begun : Built [] (Properties.empty, []) := ⟨rfl, rfl⟩
  have built := begun.first not_mem_nil other s
  refine ⟨?_, _, [], built.built, rfl⟩
  exact mem_cons_self

theorem Plain.exists_items (plain : Plain v) : ∃ s rest, v.items = .string s :: rest := by
  cases plain with
  | string s => exact ⟨s, [], rfl⟩
  | array s => exact ⟨s, _, rfl⟩

theorem exists_written (sep key : JSString) (item : Primitive) (fields : List JSString) :
    ∃ rest, sep.intercalate (pair eq key item :: fields) = pair eq key item ++ rest ∧
      (rest = [] ∨ sep <+: rest) := by
  by_cases last : fields = []
  · subst last
    exact ⟨[], by rw [intercalate_singleton, append_nil], .inl rfl⟩
  refine ⟨_, ?_, .inr (prefix_append sep (sep.intercalate fields))⟩
  rw [intercalate_cons_of_ne_nil last, append_assoc]

theorem FirstField.read_ne (separators : Separators sep eq) (long : 1 < eq.length)
    (key : WellFormed k) (other : k ≠ js "__proto__") (value : WellFormed s)
    (first : FirstField eq k (.string s) x) :
    (readPairWith toString eq x).1 ≠ js "__proto__" ∧ readPairWith toString eq x ≠ (k, s) := by
  cases first with
  | whole =>
    rw [readPairWith_pair toString separators key value]
    refine ⟨other, fun same => ?_⟩
    have length := congrArg (fun pair : JSString × JSString => pair.2.length) same
    simp only [length_append, length_drop] at length
    omega
  | cut o some_ less =>
    rw [readPairWith_cut toString separators key less]
    refine ⟨fun proto => ?_, fun same => ?_⟩
    · obtain ⟨c, eq, rfl⟩ := exists_cons_of_ne_nil separators.eq_ne_nil
      obtain ⟨o, rfl⟩ := Nat.exists_eq_succ_of_ne_zero some_.ne'
      have inside : c ∈ js "__proto__" := by
        rw [← proto]
        exact mem_append_right _ mem_cons_self
      have special := (separators.eq_special c mem_cons_self).1
      have plain : ∀ c ∈ js "__proto__", isEscaped c = true :=
        List.all_eq_true.mp (by decide)
      rw [plain c inside] at special
      cases special
    have length := congrArg (fun pair : JSString × JSString => pair.1.length) same
    simp only [length_append, length_take] at length
    omega

/-- **When `parse` undoes `stringify`**, with separators of one's own: when `eq` has one character,
as the value is read from one character behind its start. -/
theorem parseWith_stringifyWith_iff (separators : Separators sep eq) (obj : Obj)
    (parsable : Parsable obj) :
    parseWith toString sep eq (stringifyWith sep eq obj) = obj ↔
      obj.entries = [] ∨ eq.length = 1 := by
  constructor
  · intro undone
    refine or_iff_not_imp_left.mpr fun some_ => ?_
    by_contra long
    obtain ⟨⟨k, v⟩, rest, entries⟩ := exists_cons_of_ne_nil some_
    have here : (k, v) ∈ obj.entries := entries ▸ mem_cons_self
    obtain ⟨key, other⟩ := parsable.keys _ here
    obtain ⟨plain, formed⟩ := parsable.values _ here
    obtain ⟨s, items, shape⟩ := plain.exists_items
    have value : WellFormed s := by
      refine formed s ?_
      simp only [Value.strings, shape]
      exact mem_cons_self
    have fields : obj.entries.flatMap (pairs eq) =
        pair eq k (.string s) :: (items.map (pair eq k) ++ rest.flatMap (pairs eq)) := by
      rw [entries, flatMap_cons, pairs]
      simp only [shape]
      rfl
    obtain ⟨behind, written, shape'⟩ := @exists_written eq sep k (.string s)
      (items.map (pair eq k) ++ rest.flatMap (pairs eq))
    have filled : pair eq k (.string s) ++ behind ≠ [] := by simp [pair, separators.eq_ne_nil]
    obtain ⟨field, more, cut, first⟩ := exists_split separators k (.string s) shape'
      (length_pos_iff.mpr filled)
    have two : 1 < eq.length := by
      have := length_pos_iff.mpr separators.eq_ne_nil
      omega
    obtain ⟨proto, differs⟩ := first.read_ne toString separators two key other value
    rw [parsable.written, fields, written, parseWith, if_neg filled, cut, maxKeys, take_succ_cons,
      map_cons, foldl_cons] at undone
    obtain ⟨-, v', rest', built, head⟩ :=
      (begun_addPair proto (readPairWith toString eq field).2).foldl
        ((more.take 999).map (readPairWith toString eq))
    rw [undone, entries] at built
    obtain ⟨same, -⟩ := List.cons.inj built
    obtain ⟨sameKey, rfl⟩ := Prod.mk.inj same
    rw [shape, List.head?_cons] at head
    obtain sameValue := Primitive.string.inj (some.inj head)
    exact differs (Prod.ext sameKey.symm sameValue.symm)
  rintro (none_ | single)
  · obtain ⟨entries, nodup⟩ := obj
    obtain rfl : entries = [] := none_
    rfl
  · exact parseWith_stringifyWith toString separators single parsable

theorem parsable_one : Parsable ⟨[(js "a", .primitive (.string (js "1")))], by decide⟩ := by
  refine ⟨?_, ?_, by decide⟩
  · intro entry mem
    rw [mem_singleton.mp mem]
    exact ⟨⟨['a'], rfl⟩, by decide⟩
  intro entry mem
  rw [mem_singleton.mp mem]
  refine ⟨.string _, fun s mem => ?_⟩
  rw [mem_singleton.mp mem]
  exact ⟨['1'], rfl⟩

theorem separators_colon : Separators (js ";") (js ":=") :=
  ⟨by decide, by decide, @of_decide_eq_true _ (List.decidableBAll _ _) (by decide),
    @of_decide_eq_true _ (List.decidableBAll _ _) (by decide), by decide, by decide⟩

theorem parseWith_stringifyWith_colon : ¬parseWith (fun _ => []) (js ";") (js ":=")
    (stringifyWith (js ";") (js ":=") ⟨[(js "a", .primitive (.string (js "1")))], by decide⟩) =
      ⟨[(js "a", .primitive (.string (js "1")))], by decide⟩ :=
  mt (parseWith_stringifyWith_iff _ separators_colon _ parsable_one).mp (by decide)

/-- Separators of one character and of two -/
theorem not_parseWith_stringifyWith : ¬∀ sep eq obj, Separators sep eq → Parsable obj →
    parseWith (fun _ => []) sep eq (stringifyWith sep eq obj) = obj := by
  intro all
  have undone := all _ _ _ separators_colon parsable_one
  exact absurd undone (by decide)

/-- **`parse` undoes `stringify`.** -/
theorem parse_stringify (obj : Obj) (parsable : Parsable obj) :
    parse toString (stringify obj) = obj := by
  rw [parse_eq, stringify_eq]
  exact parseWith_stringifyWith toString separators_default rfl parsable

/-- A text that is not ASCII, separators in a key, and an array -/
theorem parse_stringify_array :
    parse (fun _ => []) (stringify ⟨[(js "a=b", .array [.string (js "1&2"), .string []]),
      ([0xE9], .primitive (.string (js "+")))], by decide⟩) =
        ⟨[(js "a=b", .array [.string (js "1&2"), .string []]),
          ([0xE9], .primitive (.string (js "+")))], by decide⟩ := by
  refine parse_stringify _ _ ⟨?_, ?_, by decide⟩
  · intro entry mem
    rcases mem_pair.mp mem with rfl | rfl
    · exact ⟨⟨['a', '=', 'b'], rfl⟩, by decide⟩
    · exact ⟨⟨['é'], rfl⟩, by decide⟩
  intro entry mem
  rcases mem_pair.mp mem with rfl | rfl
  · refine ⟨.array _ _ [], fun s mem => ?_⟩
    rcases mem_pair.mp mem with rfl | rfl
    · exact ⟨['1', '&', '2'], rfl⟩
    · exact ⟨[], rfl⟩
  refine ⟨.string _, fun s mem => ?_⟩
  rw [mem_singleton.mp mem]
  exact ⟨['+'], rfl⟩

end IoJs.QueryString
