import IoJs.Http.HeaderBlock

/-!
# The headers that are given

Headers are set one by one, and replaced or removed by their names, where the case of letters does
not count. The entries of a message are the pairs that are in force then, in some order, without
those that a plain object cannot hold: what is assigned to `__proto__` makes no property.
-/

namespace IoJs.Http

open IoJs.Stream IoJs.RegExp List

/-- A call that sets a header of a message or removes it -/
inductive HeaderCall where
  | set (name : JSString) (value : Value)
  | remove (name : JSString)

namespace HeaderCall

def isSet : HeaderCall → Bool
  | .set _ _ => true
  | .remove _ => false

/-- The message after the call; where the call throws, nothing has changed. -/
def apply (env : Environment) (m : OutgoingMessage) : HeaderCall → OutgoingMessage
  | .set name value => (m.setHeader env name value).getD m
  | .remove name => (m.removeHeader env name).getD m

/-- The pairs in force after the call: a pair takes the place of the one with its name. -/
def give (env : Environment) (pairs : List (JSString × Value)) :
    HeaderCall → List (JSString × Value)
  | .set name value =>
    pairs.filter (env.toLowerCase ·.1 ≠ env.toLowerCase name) ++ [(name, value)]
  | .remove name => pairs.filter (env.toLowerCase ·.1 ≠ env.toLowerCase name)

end HeaderCall

/-- The pairs that are in force after some calls -/
def inForce (env : Environment) (calls : List HeaderCall) : List (JSString × Value) :=
  calls.foldl (HeaderCall.give env) []

/-- The pairs that a response is given: what `writeHead` gets, or what it gets and what was set
before. A pair without a name takes no other's place. -/
def givenPairs (env : Environment) (calls : List HeaderCall) (obj : List (JSString × Value)) :
    List (JSString × Value) :=
  if calls.any HeaderCall.isSet then
    inForce env (calls ++ (obj.filter (·.1 ≠ [])).map fun pair => .set pair.1 pair.2) ++
      obj.filter (·.1 = [])
  else obj

/-- Does a name stand for a property of its own? -/
def storable (env : Environment) (name : JSString) : Bool :=
  env.toLowerCase name ≠ js "__proto__"

theorem ne_proto_of_storable {env : Environment} {name : JSString}
    (kept : storable env name = true) : name ≠ js "__proto__" := by
  rintro rfl
  exact of_decide_eq_true kept ((env.toLowerCase_proto _).mpr rfl)

namespace OutgoingMessage

/-! ## Fields -/

section

variable {env : Environment} {pairs : List (JSString × Value)}

/-- The pairs in force are those that can be stored and those that are lost. -/
theorem perm_storable {headers : List (JSString × Value)}
    (perm : headers ~ pairs.filter (storable env ·.1)) :
    pairs ~ headers ++ pairs.filter (!storable env ·.1) :=
  (filter_append_perm _ pairs).symm.trans (perm.symm.append_right _)

theorem mem_fieldLines {field : JSString × JSString} :
    field ∈ fieldLines pairs ↔ ∃ value, (field.1, value) ∈ pairs ∧ field.2 ∈ value.texts := by
  obtain ⟨name, text⟩ := field
  rw [fieldLines, mem_flatMap]
  constructor
  · rintro ⟨pair, inPairs, found⟩
    obtain ⟨text, among, eq⟩ := mem_map.mp found
    obtain ⟨rfl, rfl⟩ := Prod.mk.inj eq
    exact ⟨pair.2, inPairs, among⟩
  · rintro ⟨value, inPairs, found⟩
    exact ⟨(name, value), inPairs, mem_map_of_mem found⟩

theorem fieldLines_append (left right : List (JSString × Value)) :
    fieldLines (left ++ right) = fieldLines left ++ fieldLines right := flatMap_append

theorem mem_fieldLines_filter {p : JSString → Bool} {field : JSString × JSString} :
    field ∈ fieldLines (pairs.filter (p ·.1)) ↔ field ∈ fieldLines pairs ∧ p field.1 = true := by
  rw [mem_fieldLines, mem_fieldLines]
  constructor
  · rintro ⟨value, inPairs, found⟩
    exact ⟨⟨value, (mem_filter.mp inPairs).1, found⟩, (mem_filter.mp inPairs).2⟩
  · rintro ⟨⟨value, inPairs, found⟩, kept⟩
    exact ⟨value, mem_filter.mpr ⟨inPairs, kept⟩, found⟩

end

/-- The message after some calls -/
def called (env : Environment) (calls : List HeaderCall) (m : OutgoingMessage) : OutgoingMessage :=
  calls.foldl (HeaderCall.apply env) m

/-! ## Entries -/

def Entry.pair (e : Entry) : JSString × Value := (e.name, e.value)

theorem perm_addProperty (entry : Entry) (entries : List Entry) :
    addProperty entry entries ~ entry :: entries := by
  induction entries with
  | nil => exact Perm.refl _
  | cons first entries ih =>
    have behind : first :: addProperty entry entries ~ entry :: first :: entries :=
      (ih.cons first).trans (Perm.swap _ _ _)
    rw [addProperty]
    split
    · split
      · exact Perm.refl _
      · exact behind
    · exact Perm.refl _
    · exact behind

theorem perm_assign (entry : Entry) {entries : List Entry} (kept : entry.key ≠ js "__proto__")
    (distinct : (entries.map Entry.key).Nodup) :
    assign entry entries ~ entry :: entries.filter (·.key ≠ entry.key) := by
  have absent (entries : List Entry) (other : ∀ e ∈ entries, e.key ≠ entry.key) :
      (entries.map fun e => if e.key = entry.key then entry else e) = entries ∧
        entries.filter (·.key ≠ entry.key) = entries := by
    refine ⟨?_, filter_eq_self.mpr fun e mem => decide_eq_true (other e mem)⟩
    exact (map_congr_left fun e mem => if_neg (other e mem)).trans (map_id' entries)
  rw [assign, if_neg kept]
  split
  · rename_i found
    induction entries with
    | nil => cases found
    | cons e entries ih =>
      rw [map_cons, nodup_cons] at distinct
      by_cases here : e.key = entry.key
      · have other : ∀ e' ∈ entries, e'.key ≠ entry.key := fun e' mem same =>
          distinct.1 (mem_map.mpr ⟨e', mem, same.trans here.symm⟩)
        rw [map_cons, if_pos here, (absent entries other).1,
          filter_cons_of_neg (by simpa using here), (absent entries other).2]
      · rw [map_cons, if_neg here, filter_cons_of_pos (by simpa using here)]
        rw [any_cons, decide_eq_false here, Bool.false_or] at found
        exact ((ih distinct.2 found).cons e).trans (Perm.swap _ _ _)
  · rename_i missing
    have other : ∀ e ∈ entries, e.key ≠ entry.key := by simpa using missing
    rw [(absent entries other).2]
    exact perm_addProperty entry entries

/-- The entries are the pairs that can be stored, each under its name in lower case. -/
structure Holds (env : Environment) (entries : List Entry) (pairs : List (JSString × Value)) :
    Prop where
  keys : ∀ e ∈ entries, e.key = env.toLowerCase e.name
  distinct : (entries.map Entry.key).Nodup
  pairs : entries.map Entry.pair ~ pairs.filter (storable env ·.1)

variable {env : Environment} {entries : List Entry} {pairs : List (JSString × Value)}

theorem Holds.remove (holds : Holds env entries pairs) (name : JSString) :
    Holds env (entries.filter (·.key ≠ env.toLowerCase name))
      (pairs.filter (env.toLowerCase ·.1 ≠ env.toLowerCase name)) := by
  refine ⟨fun e mem => holds.keys e (mem_of_mem_filter mem),
    holds.distinct.sublist (filter_sublist.map _), ?_⟩
  have byName : (entries.filter (·.key ≠ env.toLowerCase name)).map Entry.pair =
      (entries.map Entry.pair).filter (env.toLowerCase ·.1 ≠ env.toLowerCase name) := by
    rw [filter_map]
    congr 1
    exact filter_congr fun e mem => by rw [holds.keys e mem]; rfl
  rw [byName, filter_filter]
  refine (holds.pairs.filter _).trans (Perm.of_eq ?_)
  rw [filter_filter]
  exact filter_congr fun pair _ => Bool.and_comm _ _

theorem Holds.assign (holds : Holds env entries pairs) (name : JSString) (value : Value) :
    Holds env (assign { key := env.toLowerCase name, name, value } entries)
      (pairs.filter (env.toLowerCase ·.1 ≠ env.toLowerCase name) ++ [(name, value)]) := by
  have removed := holds.remove name
  by_cases setter : env.toLowerCase name = js "__proto__"
  · have unchanged : entries.filter (·.key ≠ env.toLowerCase name) = entries := by
      refine filter_eq_self.mpr fun e mem => decide_eq_true fun same => ?_
      have stored := (holds.pairs.subset (mem_map_of_mem mem))
      rw [mem_filter, Entry.pair, storable, ← holds.keys e mem, same, setter] at stored
      exact of_decide_eq_true stored.2 rfl
    have lost : storable env name = false := decide_eq_false (fun kept => kept setter)
    rw [unchanged] at removed
    rw [OutgoingMessage.assign, if_pos setter]
    refine ⟨removed.keys, removed.distinct, ?_⟩
    rw [filter_append, filter_cons_of_neg (by simp [lost]), filter_nil, append_nil]
    exact removed.pairs
  have kept : storable env name = true := decide_eq_true setter
  have perm := perm_assign ⟨env.toLowerCase name, name, value⟩ setter holds.distinct
  refine ⟨?_, ?_, ?_⟩
  · intro e mem
    obtain rfl | mem := mem_cons.mp (perm.subset mem)
    · rfl
    · exact removed.keys e mem
  · refine (perm.map Entry.key).nodup_iff.mpr (nodup_cons.mpr ⟨?_, removed.distinct⟩)
    intro mem
    obtain ⟨e, mem, same⟩ := mem_map.mp mem
    exact of_decide_eq_true (mem_filter.mp mem).2 same
  · rw [filter_append, filter_cons_of_pos (by simpa using kept), filter_nil]
    refine (perm.map Entry.pair).trans ?_
    exact (removed.pairs.cons _).trans (perm_append_singleton _ _).symm

/-! ## Calls -/

variable {m m' : OutgoingMessage} {calls : List HeaderCall}

theorem headers_apply (call : HeaderCall) (unstored : m.header = none)
    (holds : Holds env (m.headers.getD []) pairs) :
    (call.apply env m).header = none ∧
      (call.apply env m).headers.isSome = (m.headers.isSome || call.isSet) ∧
      Holds env ((call.apply env m).headers.getD []) (call.give env pairs) := by
  have open_ : ¬m.header.isSome := by simp [unstored]
  cases call with
  | set name value =>
    rw [HeaderCall.apply, setHeader, if_neg open_]
    exact ⟨unstored, by simp [HeaderCall.isSet], holds.assign name value⟩
  | remove name =>
    rw [HeaderCall.apply, removeHeader, if_neg open_]
    refine ⟨unstored, by simp [HeaderCall.isSet], ?_⟩
    have removed := holds.remove name
    cases eq : m.headers with
    | none | some => simpa [eq, HeaderCall.give] using removed

variable (calls) in
theorem headers_foldl (unstored : m.header = none)
    (holds : Holds env (m.headers.getD []) pairs) :
    (m.called env calls).header = none ∧
      (m.called env calls).headers.isSome = (m.headers.isSome || calls.any HeaderCall.isSet) ∧
      Holds env ((m.called env calls).headers.getD [])
        (calls.foldl (HeaderCall.give env) pairs) := by
  induction calls generalizing m pairs with
  | nil => exact ⟨unstored, by simp [called], holds⟩
  | cons call calls ih =>
    obtain ⟨unstored, some, holds⟩ := headers_apply call unstored holds
    obtain ⟨unstored, some', holds⟩ := ih unstored holds
    refine ⟨unstored, ?_, holds⟩
    rw [any_cons, ← Bool.or_assoc, ← some]
    exact some'

/-- The headers of a message are those of some calls. -/
def Called (env : Environment) (calls : List HeaderCall) (m : OutgoingMessage) : Prop :=
  m.headers = (new.called env calls).headers

theorem Called.holds (given : Called env calls m) :
    Holds env (m.headers.getD []) (inForce env calls) ∧
      m.headers.isSome = calls.any HeaderCall.isSet := by
  have empty : Holds env (new.headers.getD []) [] := ⟨nofun, nodup_nil, Perm.refl _⟩
  obtain ⟨-, some, holds⟩ := headers_foldl calls rfl empty
  rw [given]
  exact ⟨holds, some⟩

theorem setHeaders_eq_called (env : Environment) (obj : List (JSString × Value))
    (unstored : m.header = none) : m.setHeaders env obj =
      some (m.called env ((obj.filter (·.1 ≠ [])).map fun pair => .set pair.1 pair.2)) := by
  rw [setHeaders, called]
  induction obj.filter (·.1 ≠ []) generalizing m with
  | nil => rfl
  | cons pair pairs ih =>
    obtain ⟨m', first, unstored⟩ :
        ∃ m', m.setHeader env pair.1 pair.2 = some m' ∧ m'.header = none := by
      rw [setHeader, if_neg (by simp [unstored])]
      exact ⟨_, rfl, unstored⟩
    rw [foldlM_cons, first, map_cons, foldl_cons, HeaderCall.apply, first]
    exact ih unstored

theorem perm_foldl_assign {entries built : List Entry}
    (distinct : (entries.map Entry.name).Nodup)
    (kept : ∀ e ∈ entries, e.name ≠ js "__proto__")
    (names : ∀ e ∈ built, e.key = e.name)
    (apart : ∀ e ∈ built, ∀ e' ∈ entries, e.name ≠ e'.name)
    (once : (built.map Entry.name).Nodup) :
    (entries.foldl (fun entries e => assign { key := e.name, name := e.name, value := e.value }
      entries) built).map Entry.pair ~ built.map Entry.pair ++ entries.map Entry.pair := by
  induction entries generalizing built with
  | nil => simp
  | cons e entries ih =>
    rw [map_cons, nodup_cons] at distinct
    let entry : Entry := { key := e.name, name := e.name, value := e.value }
    have keys : built.map Entry.key = built.map Entry.name := map_congr_left names
    have unchanged : built.filter (·.key ≠ entry.key) = built := by
      refine filter_eq_self.mpr fun e' mem => decide_eq_true ?_
      rw [names e' mem]
      exact apart e' mem e mem_cons_self
    have perm : assign entry built ~ entry :: built := by
      have perm := perm_assign entry (kept e mem_cons_self) (keys ▸ once)
      rwa [unchanged] at perm
    have members : ∀ e' ∈ assign entry built, e' = entry ∨ e' ∈ built := fun e' mem =>
      mem_cons.mp (perm.subset mem)
    refine (ih distinct.2 (fun e' mem => kept e' (mem_cons_of_mem _ mem)) ?_ ?_ ?_).trans ?_
    · intro e' mem
      obtain rfl | mem := members e' mem
      · rfl
      · exact names e' mem
    · intro e' mem e'' mem'
      obtain rfl | mem := members e' mem
      · exact fun same => distinct.1 (mem_map.mpr ⟨e'', mem', same.symm⟩)
      · exact apart e' mem e'' (mem_cons_of_mem _ mem')
    · refine (perm.map Entry.name).nodup_iff.mpr (nodup_cons.mpr ⟨?_, once⟩)
      intro mem
      obtain ⟨e', mem, same⟩ := mem_map.mp mem
      exact apart e' mem e mem_cons_self same
    · refine ((perm.map Entry.pair).append_right _).trans ?_
      exact perm_middle.symm

/-- What is rendered are the pairs that can be stored. -/
theorem Holds.render (unstored : m.header = none)
    (holds : Holds env (m.headers.getD []) pairs) :
    ∃ headers, m.renderHeaders = some headers ∧ headers ~ pairs.filter (storable env ·.1) := by
  have kept : ∀ e ∈ m.headers.getD [], e.name ≠ js "__proto__" := by
    intro e mem
    have stored := holds.pairs.subset (mem_map_of_mem mem)
    exact ne_proto_of_storable (mem_filter.mp stored).2
  have distinct : ((m.headers.getD []).map Entry.name).Nodup := by
    have keys : (m.headers.getD []).map Entry.key =
        ((m.headers.getD []).map Entry.name).map env.toLowerCase := by
      rw [map_map]
      exact map_congr_left holds.keys
    exact Nodup.of_map env.toLowerCase (keys ▸ holds.distinct)
  refine ⟨_, if_neg (by simp [unstored]), ?_⟩
  refine Perm.trans ?_ holds.pairs
  exact perm_foldl_assign distinct kept nofun nofun nodup_nil

/-- What a response stores of what it is given -/
theorem Called.headersOf (given : Called env calls m) (unstored : m.header = none)
    (obj : List (JSString × Value)) (progressive : calls.any HeaderCall.isSet = true) :
    ∃ (m' : OutgoingMessage) (headers : List (JSString × Value)), m.headersOf env obj =
      some (m', headers) ∧ headers ~ (inForce env (calls ++
      (obj.filter (·.1 ≠ [])).map fun pair => .set pair.1 pair.2)).filter (storable env ·.1) := by
  obtain ⟨holds, some⟩ := given.holds
  obtain ⟨unstored', -, holds⟩ := headers_foldl
    ((obj.filter (·.1 ≠ [])).map fun pair => .set pair.1 pair.2) unstored holds
  obtain ⟨headers, rendered, perm⟩ := holds.render unstored'
  refine ⟨m.called env ((obj.filter (·.1 ≠ [])).map fun pair => .set pair.1 pair.2),
    headers, ?_, ?_⟩
  · rw [OutgoingMessage.headersOf, if_pos (some.trans progressive),
      setHeaders_eq_called env obj unstored, Option.bind_some, rendered]
    rfl
  · rw [inForce, foldl_append]
    exact perm

end OutgoingMessage

end IoJs.Http
