import IoJs.Tls.CheckServerIdentity

/-!
# What the expression of a name matches

The expression of a name is read back as items: a star before one of `[a-z0-9\\-_\.]` is a
wildcard, followed by that character, and every other character stands for itself. Only the
character after a wildcard is not escaped, so a dot there is any character.
-/

namespace IoJs.Tls

open IoJs.Stream IoJs.RegExp IoJs.Library.RegExp List

/-- `[a-z0-9\-_]` -/
def wildcardClass : List (UInt16 × UInt16) :=
  [(unit 'a', unit 'z'), (unit '0', unit '9'), (unit '-', unit '-'), (unit '_', unit '_')]

/-- The character after a wildcard, as the expression has it -/
def subAtom (sub : UInt16) : Atom := if sub = unit '.' then .any else .char sub

/-- The items of the expression of a name -/
def nameItems : JSString → List (Item Atom)
  | [] => []
  | [all] => [.one (.char all)]
  | all :: sub :: rest =>
    if all = unit '*' ∧ isSub sub = true then
      .star (.set wildcardClass) :: .one (subAtom sub) :: nameItems rest
    else .one (.char all) :: nameItems (sub :: rest)

/-- A star that is a wildcard, and the character after it -/
def Wildcard (name before : JSString) (sub : UInt16) (after : JSString) : Prop :=
  name = before ++ unit '*' :: sub :: after ∧ isSub sub = true

section Wildcard

variable {name before after : JSString} {sub c : UInt16}

theorem Wildcard.cons (wild : Wildcard name before sub after) :
    Wildcard (c :: name) (c :: before) sub after :=
  ⟨by rw [wild.1, cons_append], wild.2⟩

end Wildcard

/-- No character after a wildcard is a backslash or a caret. -/
def Legible (name : JSString) : Prop :=
  ∀ before sub after, Wildcard name before sub after → sub ≠ unit '\\' ∧ sub ≠ unit '^'

variable {name : JSString}

theorem Legible.tail {c : UInt16} (legible : Legible (c :: name)) : Legible name := by
  intro before sub after wild
  exact legible (c :: before) sub after wild.cons

/-! ## Reading the expression -/

theorem spells_escape_unit (all : UInt16) : Spells (escape all) [.one (.char all)] := by
  rw [escape, Atom.sat]
  split
  · next special =>
      have mem : all ∈ members specialClass := by simpa using special
      have punctuation : (members specialClass).all isPunctuation = true := by decide
      exact spells_escape (List.all_eq_true.mp punctuation all mem)
  next special =>
    have mem : all ∉ members specialClass := by simpa using special
    refine spells_char fun syntactic => mem ?_
    exact (by decide : syntaxCharacters ⊆ members specialClass) syntactic

theorem spells_wildcard : Spells (js "[a-z0-9\\-_]*") [.star (.set wildcardClass)] := by
  intro r rest between
  obtain ⟨alternatives, items, mode⟩ := r
  obtain rfl : mode = .term := between
  have text : js "[a-z0-9\\-_]*" =
      [unit '[', unit 'a', unit '-', unit 'z', unit '0', unit '-', unit '9', unit '\\', unit '-',
        unit '_', unit ']', unit '*'] := by decide
  rw [text]
  simp only [cons_append, nil_append]
  simp (disch := decide) only [parseFrom_raw, parseFrom_escaped]
  rfl

theorem spells_sub {sub : UInt16} (isSub : isSub sub = true) (backslash : sub ≠ unit '\\')
    (caret : sub ≠ unit '^') :
    Spells (if sub = unit '-' then js "\\-" else [sub]) [.one (subAtom sub)] := by
  have mem : sub ∈ members subClass := by simpa [Tls.isSub, Atom.sat] using isSub
  have dash : sub ≠ unit '-' := by
    rintro rfl
    exact (by decide : unit '-' ∉ members subClass) mem
  rw [if_neg dash, subAtom]
  split
  · next dot =>
      rw [dot]
      exact spells_any
  next dot =>
    have common : (members subClass).filter (· ∈ syntaxCharacters) =
        [unit '\\', unit '^', unit '.'] := by decide
    refine spells_char fun syntactic => ?_
    have marks : sub ∈ (members subClass).filter (· ∈ syntaxCharacters) :=
      mem_filter.mpr ⟨mem, decide_eq_true syntactic⟩
    rw [common, mem_cons, mem_cons, mem_singleton] at marks
    rcases marks with rfl | rfl | rfl
    · exact backslash rfl
    · exact caret rfl
    · exact dot rfl

theorem spells_replace (legible : Legible name) : Spells (replace name) (nameItems name) := by
  induction name using replace.induct with
  | case1 => exact .nil
  | case2 all => exact spells_escape_unit all
  | case3 all sub rest wild ih =>
    rw [replace, if_pos wild, nameItems, if_pos wild]
    have here := legible [] sub rest ⟨by rw [wild.1, nil_append], wild.2⟩
    exact (spells_wildcard.append (spells_sub wild.2 here.1 here.2)).append
      (ih legible.tail.tail)
  | case4 all sub rest plain ih =>
    rw [replace, if_neg plain, nameItems, if_neg plain]
    exact (spells_escape_unit all).append (ih legible.tail)

theorem parse_expression (legible : Legible name) :
    parse (js "^" ++ replace name ++ js "$") = some [.start :: nameItems name ++ [.stop]] := by
  have start : Spells (js "^") [.start] := by
    intro r rest between
    obtain ⟨alternatives, items, mode⟩ := r
    obtain rfl : mode = .term := between
    exact parseFrom_raw (by decide)
  have stop : Spells (js "$") [.stop] := by
    intro r rest between
    obtain ⟨alternatives, items, mode⟩ := r
    obtain rfl : mode = .term := between
    exact parseFrom_raw (by decide)
  exact parse_of_spells ((start.append (spells_replace legible)).append stop)

/-! ## What the items match -/

section Expands

variable (table : CaseTable) {c all : UInt16}

/-- Equal up to case -/
def Same (c d : UInt16) : Prop := table.canonicalize c = table.canonicalize d

/-- A character that a wildcard may stand for, in either case -/
def Wild (c : UInt16) : Prop := ∃ member ∈ members wildcardClass, Same table member c

/-- A host that the expression of a name matches: the wildcards stand for characters of their
class, and the other characters for themselves. -/
inductive Expands : JSString → JSString → Prop
  | nil : Expands [] []
  | char {c d : UInt16} {name host : JSString} :
      (∀ sub after, ¬Wildcard (c :: name) [] sub after) → Same table c d → Expands name host →
        Expands (c :: name) (d :: host)
  | wildcard {sub d : UInt16} {taken name host : JSString} :
      isSub sub = true → (∀ c ∈ taken, Wild table c) →
        (subAtom sub).sat table.canonicalize d = true → Expands name host →
          Expands (unit '*' :: sub :: name) (taken ++ d :: host)

variable {table}

theorem sat_wildcard :
    Atom.sat table.canonicalize (.set wildcardClass) c = true ↔ Wild table c := by
  simp only [Atom.sat, List.any_eq_true, beq_iff_eq]
  rfl

theorem sat_char {d : UInt16} :
    Atom.sat table.canonicalize (.char c) d = true ↔ Same table c d := by
  rw [Atom.sat, beq_iff_eq]
  rfl

theorem not_wildcard_cons {sub : UInt16} {rest : JSString}
    (plain : ¬(all = unit '*' ∧ isSub sub = true)) (sub' : UInt16) (after : JSString) :
    ¬Wildcard (all :: sub :: rest) [] sub' after := by
  rintro ⟨same, isSub'⟩
  obtain ⟨star, rfl, -⟩ : all = unit '*' ∧ sub = sub' ∧ rest = after := by simpa using same
  exact plain ⟨star, isSub'⟩

theorem not_wildcard_singleton (sub : UInt16) (after : JSString) :
    ¬Wildcard [all] [] sub after := by
  rintro ⟨same, -⟩
  simp at same

/-- The expression of a name accepts what the name expands to. -/
theorem run_nameItems {name input : JSString} {first : Bool} :
    run (Atom.sat table.canonicalize) (nameItems name ++ [.stop]) first input = true ↔
      Expands table name input := by
  induction name using nameItems.induct generalizing first input with
  | case1 =>
    rw [nameItems, nil_append, run, run, Bool.and_true, List.isEmpty_iff]
    constructor
    · rintro rfl
      exact .nil
    rintro ⟨⟩
    rfl
  | case2 all =>
    rw [nameItems, singleton_append, run, once_iff]
    constructor
    · rintro ⟨d, rest, rfl, same, stop⟩
      rw [run, run, Bool.and_true, List.isEmpty_iff] at stop
      subst stop
      exact .char not_wildcard_singleton (sat_char.mp same) .nil
    intro expands
    cases expands with
    | char _ same rest =>
      cases rest
      exact ⟨_, [], rfl, sat_char.mpr same, rfl⟩
  | case3 all sub rest wild ih =>
    rw [nameItems, if_pos wild, cons_append, cons_append, run, many_iff]
    constructor
    · rintro ⟨taken, left, rfl, class', holds⟩
      obtain ⟨d, host, rfl, here, holds⟩ := once_iff.mp holds
      rw [wild.1]
      refine .wildcard wild.2 ?_ here (ih.mp holds)
      intro c mem
      exact sat_wildcard.mp (class' c mem)
    intro expands
    cases expands with
    | char plain => exact absurd ⟨by rw [wild.1, nil_append], wild.2⟩ (plain sub rest)
    | wildcard _ class' here expands =>
      refine ⟨_, _, rfl, ?_, once_iff.mpr ⟨_, _, rfl, here, ih.mpr expands⟩⟩
      intro c mem
      exact sat_wildcard.mpr (class' c mem)
  | case4 all sub rest plain ih =>
    rw [nameItems, if_neg plain, cons_append, run, once_iff]
    constructor
    · rintro ⟨d, host, rfl, same, holds⟩
      exact .char (not_wildcard_cons plain) (sat_char.mp same) (ih.mp holds)
    intro expands
    cases expands with
    | char _ same expands => exact ⟨_, _, rfl, sat_char.mpr same, ih.mpr expands⟩
    | wildcard isSub => exact absurd ⟨rfl, isSub⟩ plain

end Expands

/-! ## The expressions that `regexpify` returns -/

section Regexpify

variable (env : Environment) (name : Name) {wildcards : Bool}

theorem test_never (host : JSString) : test never host = false := by
  rw [Bool.eq_false_iff]
  intro holds
  simp only [test, never, Pattern.test, any_cons, any_nil, Bool.or_false] at holds
  obtain ⟨before, rest, -, holds⟩ := search_iff.mp holds
  rw [run, Bool.and_eq_true, List.isEmpty_iff] at holds
  obtain ⟨rfl, holds⟩ := holds
  obtain ⟨x, rest, split, -⟩ := once_iff.mp holds
  cases split

theorem regexpify_rejected (rejected : rejects (canonical name.text) wildcards = true) :
    regexpify env name wildcards = some (test never) := by
  simp only [regexpify]
  rw [if_pos rejected]

theorem regexpify_legible (stays : rejects (canonical name.text) wildcards = false)
    (legible : Legible (canonical name.text)) :
    ∃ re, regexpify env name wildcards = some re ∧
      ∀ host, re host = true ↔ Expands env.table (canonical name.text) host := by
  refine ⟨Pattern.test (Atom.sat env.table.canonicalize)
    [.start :: nameItems (canonical name.text) ++ [.stop]], ?_, ?_⟩
  · simp only [regexpify]
    rw [if_neg (by simp [stays])]
    exact env.engine.newRegExp_parse _ _ (parse_expression legible)
  intro host
  rw [Pattern.test, any_cons, any_nil, Bool.or_false, cons_append, search_start]
  exact run_nameItems

end Regexpify

end IoJs.Tls
