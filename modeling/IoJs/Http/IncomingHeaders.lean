import IoJs.Buffer
import IoJs.Library.Properties

/-!
# The headers of an incoming message

`_addHeaderLines` puts the headers of a message into an object, where the values of one name are
merged: into an array, to the first one, or into a list in one string. What has come before is read
from the object, which has the properties of `Object.prototype`, too.
-/

namespace IoJs.Http.Incoming

open IoJs.Stream IoJs.RegExp IoJs.Library IoJs.Buffer List Option

/-! ## Objects -/

/-- A value of a property -/
inductive Value where
  | string (text : JSString)
  | array (items : List JSString)
  /-- a property of `Object.prototype` -/
  | inherited (name : JSString)

/-- An object that is made by `{}` -/
abbrev Obj := Properties JSString Value

/-- The properties of `Object.prototype`, with what they are as strings -/
def objectPrototype : List (JSString × JSString) :=
  [(js "constructor", js "function Object() { [native code] }"),
    (js "__proto__", js "[object Object]")] ++
  ["__defineGetter__", "__defineSetter__", "__lookupGetter__", "__lookupSetter__",
    "hasOwnProperty", "isPrototypeOf", "propertyIsEnumerable", "toLocaleString", "toString",
    "valueOf"].map fun name => (js name, js "function " ++ js name ++ js "() { [native code] }")

def separator : JSString := js ", "

namespace Obj

/-- `dest[field]` -/
def find (dest : Obj) (field : JSString) : Option Value :=
  match dest.get field with
  | some value => some value
  | none => if (objectPrototype.lookup field).isSome then some (.inherited field) else none

/-- `dest[field] = value`; `__proto__` is set by a setter, which does nothing for what is no object.
-/
def assign (dest : Obj) (field : JSString) (value : JSString) : Obj :=
  if field = js "__proto__" then dest else dest.set field (.string value)

end Obj

/-- A value as a string -/
def Value.text : Value → JSString
  | .string text => text
  | .array items => (js ",").intercalate items
  | .inherited name => (objectPrototype.lookup name).getD []

/-! ## Messages -/

/-- The name of a header: it is not empty, and in ASCII. -/
structure FieldName where
  text : JSString
  filled : text ≠ []
  ascii : ∀ unit ∈ text, unit.toNat < 0x80

/-- What `_addHeaderLines` uses of an `IncomingMessage` -/
structure IncomingMessage where
  complete : Bool
  headers : Obj
  rawHeaders : List JSString
  trailers : Obj
  rawTrailers : List JSString

/-- The array header -/
def setCookie : JSString := js "set-cookie"

/-- The headers of which duplicates are dropped -/
def single : List JSString :=
  [js "content-type", js "content-length", js "user-agent", js "referer", js "host",
    js "authorization", js "proxy-authorization", js "if-modified-since", js "if-unmodified-since",
    js "from", js "location", js "max-forwards"]

/-- `_addHeaderLine`; it would throw if what has come before of an array header was no array. -/
def addHeaderLine (field value : JSString) (dest : Obj) : Option Obj :=
  let field := toLowerCase field
  if field = setCookie then
    match Obj.find dest field with
    | some (.array items) => some (dest.set field (.array (items ++ [value])))
    | some _ => none
    | none => some (dest.set field (.array [value]))
  else if single.contains field then
    match Obj.find dest field with
    | some _ => some dest
    | none => some (Obj.assign dest field value)
  else
    match Obj.find dest field with
    | some before => some (Obj.assign dest field (before.text ++ (separator ++ value)))
    | none => some (Obj.assign dest field value)

namespace IncomingMessage

/-- `raw.push(k); raw.push(v); this._addHeaderLine(k, v, dest)` -/
def addLine (m : IncomingMessage) (k v : JSString) : Option IncomingMessage :=
  if m.complete then
    (addHeaderLine k v m.trailers).map fun dest =>
      { m with rawTrailers := m.rawTrailers ++ [k, v], trailers := dest }
  else
    (addHeaderLine k v m.headers).map fun dest =>
      { m with rawHeaders := m.rawHeaders ++ [k, v], headers := dest }

/-- `_addHeaderLines`, for names and values in turn -/
def addHeaderLines (m : IncomingMessage) : List JSString → ℕ → Option IncomingMessage
  | k :: v :: headers, n =>
    if 0 < n then (m.addLine k v).bind fun m => m.addHeaderLines headers (n - 2) else some m
  | _, _ => some m

def dest (m : IncomingMessage) : Obj := if m.complete then m.trailers else m.headers

/-- A message that has no headers yet, or no trailers -/
def new (complete : Bool) (headers : Obj) (rawHeaders : List JSString) : IncomingMessage :=
  { complete
    headers := if complete then headers else .empty
    rawHeaders := if complete then rawHeaders else []
    trailers := .empty
    rawTrailers := [] }

end IncomingMessage

/-! ## Names in lower case -/

theorem toLowerCase_toLowerCase (name : JSString) :
    toLowerCase (toLowerCase name) = toLowerCase name := by
  rw [toLowerCase, toLowerCase, List.map_map]
  refine map_congr_left fun ch _ => ?_
  have upper (c : UInt16) : (0x41 ≤ c ∧ c ≤ 0x5A) ↔ 0x41 ≤ c.toNat ∧ c.toNat ≤ 0x5A := by
    simp [UInt16.le_iff_toNat_le]
  simp only [Function.comp_apply]
  by_cases here : 0x41 ≤ ch ∧ ch ≤ 0x5A
  · rw [if_pos here, if_neg]
    rw [upper] at here ⊢
    rw [UInt16.toNat_add]
    have shift : (0x20 : UInt16).toNat = 0x20 := rfl
    omega
  · rw [if_neg here, if_neg here]

variable {name : JSString}

theorem inherited_cases (found : (objectPrototype.lookup (toLowerCase name)).isSome = true) :
    toLowerCase name = js "constructor" ∨ toLowerCase name = js "__proto__" := by
  have all : ∀ property ∈ objectPrototype, toLowerCase property.1 = property.1 →
      property.1 = js "constructor" ∨ property.1 = js "__proto__" := by decide
  by_contra neither
  have none : objectPrototype.lookup (toLowerCase name) = none := by
    refine lookup_eq_none_iff.mpr fun property mem => ?_
    have other : toLowerCase name ≠ property.1 := by
      intro same
      have lower : toLowerCase property.1 = property.1 := by rw [← same, toLowerCase_toLowerCase]
      exact neither (same ▸ all property mem lower)
    simpa using other
  simp [none] at found

/-! ## What is merged -/

/-- The values of a name, in order -/
def values (field : JSString) (lines : List (JSString × JSString)) : List JSString :=
  (lines.filter fun line => toLowerCase line.1 = field).map Prod.snd

/-- What the values of one name are merged to -/
def merged (field : JSString) (vs : List JSString) : Value :=
  if field = setCookie then .array vs
  else if single.contains field then .string (vs.headD [])
  else .string (separator.intercalate vs)

/-- The own property of a name with these values -/
def own (field : JSString) (vs : List JSString) : Option Value :=
  if vs = [] ∨ field = js "__proto__" then none
  else if field = js "constructor" then
    some (.string (separator.intercalate (js "function Object() { [native code] }" :: vs)))
  else some (merged field vs)

/-- An object has what has been merged. -/
def Holds (dest : Obj) (lines : List (JSString × JSString)) : Prop :=
  ∀ field, dest.get field = own field (values field lines)

variable {lines : List (JSString × JSString)} {dest : Obj} {name value field : JSString}

theorem values_concat : values field (lines ++ [(name, value)]) =
    if toLowerCase name = field then values field lines ++ [value] else values field lines := by
  grind [values]

theorem intercalate_concat {first : List JSString} (some_ : first ≠ []) (v : JSString) :
    separator.intercalate (first ++ [v]) = separator.intercalate first ++ (separator ++ v) := by
  induction first with
  | nil => exact absurd rfl some_
  | cons x first ih =>
    cases first with
    | nil => rw [singleton_append, intercalate_cons_cons, intercalate_singleton,
        intercalate_singleton, append_assoc]
    | cons y first =>
      rw [cons_append, cons_append, intercalate_cons_cons, ← cons_append,
        ih (cons_ne_nil y first), intercalate_cons_cons]
      simp

theorem find_eq (holds : Holds dest lines) (name : JSString) : Obj.find dest (toLowerCase name) =
    if toLowerCase name = js "__proto__" then some (.inherited (js "__proto__"))
    else if toLowerCase name = js "constructor" ∧ values (toLowerCase name) lines = [] then
      some (.inherited (js "constructor"))
    else own (toLowerCase name) (values (toLowerCase name) lines) := by
  have inherited := @inherited_cases name
  rw [Obj.find, holds]
  generalize toLowerCase name = field at inherited ⊢
  by_cases proto : field = js "__proto__"
  · subst proto
    rw [own, if_pos (.inr rfl), if_pos rfl]
    rfl
  rw [if_neg proto]
  by_cases new : values field lines = []
  · rw [own, if_pos (.inl new)]
    by_cases constructor : field = js "constructor"
    · subst constructor
      exact (if_pos ⟨rfl, new⟩).symm
    have absent : (objectPrototype.lookup field).isSome = false := by
      rw [Bool.eq_false_iff]
      intro found
      rcases inherited found with same | same
      · exact constructor same
      · exact proto same
    simp only [absent]
    exact (if_neg fun both => constructor both.1).symm
  have some_ : ∃ v, own field (values field lines) = some v := by
    rw [own, if_neg (not_or.mpr ⟨new, proto⟩)]
    split
    · exact ⟨_, rfl⟩
    · exact ⟨_, rfl⟩
  obtain ⟨v, some_⟩ := some_
  simp only [some_]
  exact (if_neg fun both => new both.2).symm

theorem get_assign (other : field ≠ js "__proto__") (text key : JSString) :
    (Obj.assign dest field text).get key = if key = field then some (.string text)
      else dest.get key := by
  rw [Obj.assign, if_neg other]
  exact Properties.get_set key

/-- The value is merged with those of its name, and the rest is as before. -/
structure Merges (dest : Obj) (field : JSString) (vs : List JSString) (value : JSString)
    (dest' : Obj) : Prop where
  here : dest'.get field = own field (vs ++ [value])
  there : ∀ key, key ≠ field → dest'.get key = dest.get key

theorem Merges.holds {dest' : Obj} (holds : Holds dest lines)
    (merges : Merges dest (toLowerCase name) (values (toLowerCase name) lines) value dest') :
    Holds dest' (lines ++ [(name, value)]) := by
  intro key
  rw [values_concat]
  by_cases same : toLowerCase name = key
  · subst same
    rw [if_pos rfl, merges.here]
  · rw [if_neg same, merges.there key (Ne.symm same), holds]

variable {vs : List JSString}

theorem merges_assign (proto : field ≠ js "__proto__") {text : JSString}
    (here : own field (vs ++ [value]) = some (.string text)) :
    Merges dest field vs value (Obj.assign dest field text) where
  here := by rw [get_assign proto, if_pos rfl, here]
  there key other := by rw [get_assign proto, if_neg other]

theorem own_of_ne_nil (proto : field ≠ js "__proto__") (constructor : field ≠ js "constructor")
    (filled : vs ≠ []) : own field vs = some (merged field vs) := by
  simp [own, not_or.mpr ⟨filled, proto⟩, constructor]

theorem addHeaderLine_proto (same : toLowerCase name = js "__proto__")
    (found : Obj.find dest (js "__proto__") = some (.inherited (js "__proto__"))) :
    addHeaderLine name value dest = some dest := by
  rw [addHeaderLine, same, found]
  rfl

theorem own_constructor (v : JSString) : own (js "constructor") (vs ++ [v]) =
    some (.string (separator.intercalate
      (js "function Object() { [native code] }" :: vs) ++ (separator ++ v))) := by
  rw [own, if_neg (not_or.mpr ⟨concat_ne_nil v vs, by decide⟩), if_pos rfl, ← cons_append,
    intercalate_concat (cons_ne_nil _ _)]

theorem addHeaderLine_constructor (same : toLowerCase name = js "constructor")
    (found : Obj.find dest (js "constructor") =
      if vs = [] then some (.inherited (js "constructor")) else own (js "constructor") vs) :
    ∃ dest', addHeaderLine name value dest = some dest' ∧
      Merges dest (js "constructor") vs value dest' := by
  have next : Merges dest (js "constructor") vs value (Obj.assign dest (js "constructor") _) :=
    merges_assign (by decide) (own_constructor value)
  rw [addHeaderLine, same, found, if_neg (by decide), if_neg (by decide)]
  by_cases new : vs = []
  · subst new
    exact ⟨_, rfl, next⟩
  rw [if_neg new, own, if_neg (not_or.mpr ⟨new, by decide⟩), if_pos rfl]
  exact ⟨_, rfl, next⟩

theorem setCookie_plain : setCookie ≠ js "__proto__" ∧ setCookie ≠ js "constructor" := by decide

theorem addHeaderLine_setCookie (same : toLowerCase name = setCookie)
    (found : Obj.find dest setCookie = own setCookie vs) :
    ∃ dest', addHeaderLine name value dest = some dest' ∧ Merges dest setCookie vs value dest' := by
  obtain ⟨proto, constructor⟩ := setCookie_plain
  have array (items : List JSString) : merged setCookie items = .array items := if_pos rfl
  have stored : Merges dest setCookie vs value (dest.set setCookie (.array (vs ++ [value]))) := by
    refine ⟨?_, fun key other => ?_⟩
    · rw [Properties.get_set, if_pos rfl,
        own_of_ne_nil proto constructor (concat_ne_nil value vs), array]
    · rw [Properties.get_set, if_neg other]
  rw [addHeaderLine, same, found, if_pos rfl]
  by_cases new : vs = []
  · subst new
    exact ⟨_, rfl, stored⟩
  rw [own_of_ne_nil proto constructor new, array]
  exact ⟨_, rfl, stored⟩

section Plain

variable (same : toLowerCase name = field) (proto : field ≠ js "__proto__")
  (constructor : field ≠ js "constructor") (cookie : field ≠ setCookie)

include same proto constructor cookie

theorem addHeaderLine_single (one : single.contains field = true)
    (kept : dest.get field = own field vs)
    (found : Obj.find dest field = own field vs) :
    ∃ dest', addHeaderLine name value dest = some dest' ∧ Merges dest field vs value dest' := by
  have next := own_of_ne_nil proto constructor (concat_ne_nil value vs)
  have first (items : List JSString) : merged field items = .string (items.headD []) := by
    rw [merged, if_neg cookie, if_pos one]
  rw [addHeaderLine, same, found, if_neg cookie, if_pos one]
  by_cases new : vs = []
  · subst new
    refine ⟨_, rfl, merges_assign proto ?_⟩
    rw [next, first]
    rfl
  have before := own_of_ne_nil proto constructor new
  rw [before]
  refine ⟨dest, rfl, ?_, fun key _ => rfl⟩
  obtain ⟨v, vs, rfl⟩ := exists_cons_of_ne_nil new
  rw [kept, before, next, first, first]
  rfl

theorem addHeaderLine_joined (other : ¬single.contains field = true)
    (found : Obj.find dest field = own field vs) :
    ∃ dest', addHeaderLine name value dest = some dest' ∧ Merges dest field vs value dest' := by
  have next := own_of_ne_nil proto constructor (concat_ne_nil value vs)
  have joined (items : List JSString) :
      merged field items = .string (separator.intercalate items) := by
    rw [merged, if_neg cookie, if_neg other]
  rw [addHeaderLine, same, found, if_neg cookie, if_neg other]
  by_cases new : vs = []
  · subst new
    refine ⟨_, rfl, merges_assign proto ?_⟩
    rw [next, joined, nil_append, intercalate_singleton]
  rw [own_of_ne_nil proto constructor new]
  refine ⟨_, rfl, merges_assign proto ?_⟩
  rw [next, joined, joined, intercalate_concat new]
  rfl

end Plain

theorem addHeaderLine_spec (holds : Holds dest lines) (name value : JSString) :
    ∃ dest', addHeaderLine name value dest = some dest' ∧
      Holds dest' (lines ++ [(name, value)]) := by
  suffices ∃ dest', addHeaderLine name value dest = some dest' ∧
      Merges dest (toLowerCase name) (values (toLowerCase name) lines) value dest' by
    obtain ⟨dest', added, merges⟩ := this
    exact ⟨dest', added, merges.holds holds⟩
  have found := find_eq holds name
  have kept := holds (toLowerCase name)
  generalize same : toLowerCase name = field at found kept ⊢
  generalize values field lines = vs at found kept ⊢
  by_cases proto : field = js "__proto__"
  · subst proto
    refine ⟨dest, addHeaderLine_proto same found, ?_, fun key _ => rfl⟩
    rw [kept, own, own, if_pos (.inr rfl), if_pos (.inr rfl)]
  rw [if_neg proto] at found
  by_cases constructor : field = js "constructor"
  · subst constructor
    refine addHeaderLine_constructor same ?_
    rw [found]
    exact if_congr (and_iff_right rfl) rfl rfl
  rw [if_neg fun both => constructor both.1] at found
  by_cases cookie : field = setCookie
  · subst cookie
    exact addHeaderLine_setCookie same found
  by_cases one : single.contains field = true
  · exact addHeaderLine_single same proto constructor cookie one kept found
  · exact addHeaderLine_joined same proto constructor cookie one found

/-! ## All lines -/

/-- The names and the values, as they are received -/
def flat (lines : List (FieldName × JSString)) : List JSString :=
  lines.flatMap fun line => [line.1.text, line.2]

/-- The names as strings -/
def texts (lines : List (FieldName × JSString)) : List (JSString × JSString) :=
  lines.map fun line => (line.1.text, line.2)

namespace IncomingMessage

variable {m : IncomingMessage}

theorem addLine_spec (holds : Holds m.dest lines) (k v : JSString) :
    ∃ m', m.addLine k v = some m' ∧ Holds m'.dest (lines ++ [(k, v)]) := by
  obtain ⟨dest', added, holds'⟩ := addHeaderLine_spec holds k v
  rw [addLine]
  rw [dest] at added
  cases complete : m.complete with
  | true =>
    rw [complete, if_pos rfl] at added
    rw [if_pos rfl, added]
    exact ⟨_, rfl, holds'⟩
  | false =>
    rw [complete, if_neg (by decide)] at added
    rw [if_neg (by decide), added]
    exact ⟨_, rfl, holds'⟩

theorem addHeaderLines_spec (more : List (FieldName × JSString)) {n : ℕ}
    (holds : Holds m.dest lines) :
    ∃ m', m.addHeaderLines (flat more) n = some m' ∧
      Holds m'.dest (lines ++ texts (more.take ((n + 1) / 2))) := by
  induction more generalizing m n lines with
  | nil =>
    refine ⟨m, rfl, ?_⟩
    simpa using (append_nil lines).symm ▸ holds
  | cons line more ih =>
    have pair : flat (line :: more) = line.1.text :: line.2 :: flat more := rfl
    rw [pair, addHeaderLines]
    by_cases zero : n = 0
    · subst zero
      exact ⟨m, rfl, (append_nil lines).symm ▸ holds⟩
    obtain ⟨m', added, holds'⟩ := addLine_spec holds line.1.text line.2
    obtain ⟨m'', rest, holds''⟩ := ih (n := n - 2) holds'
    have count : (n + 1) / 2 = (n - 2 + 1) / 2 + 1 := by omega
    rw [if_pos (Nat.pos_of_ne_zero zero), added]
    refine ⟨m'', rest, ?_⟩
    rw [append_assoc] at holds''
    rw [count, take_succ_cons]
    exact holds''

end IncomingMessage

/-! ## Messages as they should be -/

/-- The headers are what they should be: the values of each name are merged, and there are no other
own properties. -/
structure Merged (dest : Obj) (lines : List (JSString × JSString)) : Prop where
  values : ∀ field, values field lines ≠ [] →
    dest.find field = some (merged field (values field lines))
  others : ∀ field, Incoming.values field lines = [] → dest.get field = none

/-- The names that `Object.prototype` has, too -/
def Inherited (name : JSString) : Prop :=
  toLowerCase name = js "constructor" ∨ toLowerCase name = js "__proto__"

theorem exists_of_values (some_ : values field lines ≠ []) :
    ∃ line ∈ lines, toLowerCase line.1 = field := by
  obtain ⟨v, rest, eq⟩ := exists_cons_of_ne_nil some_
  have mem : v ∈ values field lines := by rw [eq]; exact mem_cons_self
  obtain ⟨line, mem, -⟩ := List.mem_map.mp mem
  obtain ⟨mem, same⟩ := mem_filter.mp mem
  exact ⟨line, mem, by simpa using same⟩

theorem values_of_mem {line : JSString × JSString} (mem : line ∈ lines) :
    values (toLowerCase line.1) lines ≠ [] := by
  intro none
  have here : line.2 ∈ values (toLowerCase line.1) lines :=
    List.mem_map.mpr ⟨line, mem_filter.mpr ⟨mem, by simp⟩, rfl⟩
  simp [none] at here

theorem merged_constructor_ne (some_ : vs ≠ []) :
    separator.intercalate (js "function Object() { [native code] }" :: vs) ≠
      separator.intercalate vs := by
  intro same
  have length := congrArg List.length same
  rw [intercalate_cons_of_ne_nil some_, length_append, length_append] at length
  have more : 0 < (js "function Object() { [native code] }").length := by decide
  omega

theorem merged_iff (holds : Holds dest lines) :
    Merged dest lines ↔ ∀ line ∈ lines, ¬Inherited line.1 := by
  constructor
  · rintro right line mem (constructor | proto)
    · have some_ := values_of_mem mem
      have found := right.values _ some_
      rw [constructor] at some_ found
      have plain (vs : List JSString) :
          merged (js "constructor") vs = .string (separator.intercalate vs) := rfl
      have held := find_eq holds line.1
      rw [constructor, if_neg (by decide), if_neg fun both => some_ both.2, own,
        if_neg (not_or.mpr ⟨some_, by decide⟩), if_pos rfl, found, plain] at held
      exact merged_constructor_ne some_ (Value.string.inj (some.inj held)).symm
    have found := right.values _ (values_of_mem mem)
    rw [find_eq holds, if_pos proto, proto] at found
    cases found
  intro plain
  refine ⟨fun field some_ => ?_, fun field none => ?_⟩
  · obtain ⟨line, mem, rfl⟩ := exists_of_values some_
    have other := plain line mem
    rw [Inherited, not_or] at other
    rw [find_eq holds, if_neg other.2, if_neg fun both => other.1 both.1, own,
      if_neg (not_or.mpr ⟨some_, other.2⟩), if_neg other.1]
  rw [holds, none]
  exact if_pos (.inl rfl)

theorem holds_new (complete : Bool) (headers : Obj) (rawHeaders : List JSString) :
    Holds (IncomingMessage.new complete headers rawHeaders).dest [] := by
  have empty : (IncomingMessage.new complete headers rawHeaders).dest = .empty := by
    cases complete <;> rfl
  rw [empty]
  intro field
  exact (if_pos (.inl rfl)).symm

/-- `_addHeaderLines` makes of the headers of a message, or of its trailers, what they should be. -/
def Adds (m : IncomingMessage) (lines : List (FieldName × JSString)) (n : ℕ) : Prop :=
  ∃ m', m.addHeaderLines (flat lines) n = some m' ∧
    Merged m'.dest (texts (lines.take ((n + 1) / 2)))

/-- **When headers are merged as they should be**: unless a name is one that all objects have. -/
theorem headers_merged_iff (complete : Bool) (headers : Obj) (rawHeaders : List JSString)
    (lines : List (FieldName × JSString)) (n : ℕ) :
    Adds (.new complete headers rawHeaders) lines n ↔
      ∀ line ∈ lines.take ((n + 1) / 2), ¬Inherited line.1.text := by
  obtain ⟨m', added, holds⟩ :=
    IncomingMessage.addHeaderLines_spec lines (n := n) (holds_new complete headers rawHeaders)
  rw [nil_append] at holds
  have all : (∀ line ∈ texts (lines.take ((n + 1) / 2)), ¬Inherited line.1) ↔
      ∀ line ∈ lines.take ((n + 1) / 2), ¬Inherited line.1.text := List.forall_mem_map
  rw [← all, ← merged_iff holds]
  constructor
  · rintro ⟨m'', added', merged⟩
    obtain rfl := some.inj (added.symm.trans added')
    exact merged
  intro merged
  exact ⟨m', added, merged⟩

/-- A header that is called `constructor` is put behind the text of a function. -/
theorem constructor_merged : ¬∀ (complete : Bool) (headers : Obj) (rawHeaders : List JSString)
    (lines : List (FieldName × JSString)) (n : ℕ),
    Adds (.new complete headers rawHeaders) lines n := by
  intro adds
  have ascii : ((js "constructor").all fun unit => decide (unit.toNat < 0x80)) = true := by decide
  let line : FieldName × JSString :=
    (⟨js "constructor", by decide, fun unit mem =>
      of_decide_eq_true (List.all_eq_true.mp ascii unit mem)⟩, js "x")
  obtain ⟨m', added, right⟩ := adds false .empty [] [line] 2
  obtain ⟨m'', added', holds⟩ :=
    IncomingMessage.addHeaderLines_spec [line] (n := 2) (holds_new false .empty [])
  obtain rfl := some.inj (added.symm.trans added')
  have lower : toLowerCase (js "constructor") = js "constructor" := by decide
  exact (merged_iff holds).mp right _ mem_cons_self (.inl lower)

end IoJs.Http.Incoming
