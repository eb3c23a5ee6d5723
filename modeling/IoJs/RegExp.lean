import IoJs.Library.RegExp
import IoJs.Stream.Chunk

/-!
# Regular expressions of JavaScript

The patterns without groups: characters, escapes of punctuation, classes, `.`, the anchors, the
greedy quantifiers and alternatives. `parse` reads them; it says nothing about other patterns.
With the flag `i` characters are compared after `canonicalize`.
-/

namespace IoJs.RegExp

open IoJs.Stream IoJs.Library.RegExp List Option

/-- The code unit of a character of ASCII. -/
def unit (c : Char) : UInt16 := UInt16.ofNat c.toNat

/-- A string literal of ASCII characters. -/
def js (literal : String) : JSString := literal.toList.map unit

def isLineTerminator (ch : UInt16) : Bool :=
  ch == 0x000A || ch == 0x000D || ch == 0x2028 || ch == 0x2029

/-- `toUpperCase` of strings of one code unit: beyond ASCII it is whatever Unicode has. -/
structure CaseTable where
  toUpperCase : UInt16 → JSString
  lower : ∀ ch, 0x61 ≤ ch → ch ≤ 0x7A → toUpperCase ch = [ch - 0x20]
  other : ∀ ch, ch < 0x80 → ¬(0x61 ≤ ch ∧ ch ≤ 0x7A) → toUpperCase ch = [ch]

/-- `Canonicalize`, where the flag `i` is set -/
def CaseTable.canonicalize (table : CaseTable) (ch : UInt16) : UInt16 :=
  match table.toUpperCase ch with
  | [cu] => if 0x80 ≤ ch ∧ cu < 0x80 then ch else cu
  | _ => ch

/-- What stands for one character in a pattern: `.`, a character or a class. -/
inductive Atom where
  | any
  | char (ch : UInt16)
  | set (ranges : List (UInt16 × UInt16))
  deriving DecidableEq

/-- The code units from `lo` to `hi` -/
def between (lo hi : UInt16) : JSString :=
  (List.range (hi.toNat + 1 - lo.toNat)).map fun i => UInt16.ofNat (lo.toNat + i)

/-- The members of a class -/
def members (ranges : List (UInt16 × UInt16)) : JSString :=
  ranges.flatMap fun range => between range.1 range.2

/-- `CharacterSetMatcher` -/
def Atom.sat (canonicalize : UInt16 → UInt16) : Atom → UInt16 → Bool
  | .any, ch => !isLineTerminator ch
  | .char member, ch => canonicalize member == canonicalize ch
  | .set ranges, ch => (members ranges).any fun member => canonicalize member == canonicalize ch

/-! ## Reading a pattern -/

/-- A character of a pattern, after a backslash or not. -/
inductive Token where
  | raw (ch : UInt16)
  | escaped (ch : UInt16)
  deriving DecidableEq

/-- The tokens of a pattern; there are none where it ends in the middle of an escape. -/
def tokens : JSString → Option (List Token)
  | [] => some []
  | [c] => if c = unit '\\' then none else some [.raw c]
  | c :: d :: rest =>
    if c = unit '\\' then (tokens rest).map (.escaped d :: ·)
    else (tokens (d :: rest)).map (.raw c :: ·)

/-- The characters of ASCII that an escape stands for itself with, whatever follows. -/
def isPunctuation (ch : UInt16) : Bool :=
  (0x21 ≤ ch && ch ≤ 0x2F) || (0x3A ≤ ch && ch ≤ 0x40) || (0x5B ≤ ch && ch ≤ 0x5E) || ch == 0x60 ||
    (0x7B ≤ ch && ch ≤ 0x7E)

/-- Where the reader is: between terms, after `[`, in a class, or in a class after `lo-`. -/
inductive Mode where
  | term
  | opened
  | inside (ranges : List (UInt16 × UInt16)) (last : Option UInt16)
  | range (ranges : List (UInt16 × UInt16)) (lo : UInt16)
  deriving DecidableEq

/-- What was read: the alternatives and the items of the last one, both from the last to the first.
-/
structure Reading where
  alternatives : Pattern Atom := []
  items : List (Item Atom) := []
  mode : Mode := .term
  deriving DecidableEq

namespace Reading

/-- A term that is an item -/
def item (r : Reading) (next : Item Atom) : Reading :=
  { r with items := next :: r.items, mode := .term }

/-- A quantifier, which belongs to the atom before it -/
def quantified (r : Reading) (quantifier : Atom → Item Atom) : Option Reading :=
  match r.items with
  | .one atom :: items => some { r with items := quantifier atom :: items }
  | _ => none

/-- A class with the characters read so far -/
def single (ranges : List (UInt16 × UInt16)) (last : Option UInt16) : List (UInt16 × UInt16) :=
  ranges ++ (last.toList.map fun ch => (ch, ch))

/-- A character of a class -/
def classAtom (r : Reading) (ranges : List (UInt16 × UInt16)) (last : Option UInt16)
    (ch : UInt16) : Reading :=
  { r with mode := .inside (single ranges last) (some ch) }

/-- The second character of a range -/
def classRange (r : Reading) (ranges : List (UInt16 × UInt16)) (lo hi : UInt16) : Option Reading :=
  if lo ≤ hi then some { r with mode := .inside (ranges ++ [(lo, hi)]) none } else none

/-- A token between terms. Groups and counted quantifiers are not read, and a lone `]` is itself. -/
def stepTerm (r : Reading) : Token → Option Reading
  | .escaped ch => if isPunctuation ch then some (r.item (.one (.char ch))) else none
  | .raw ch =>
    if ch = unit '|' then
      some { r with alternatives := r.items.reverse :: r.alternatives, items := [] }
    else if ch = unit '^' then some (r.item .start)
    else if ch = unit '$' then some (r.item .stop)
    else if ch = unit '.' then some (r.item (.one .any))
    else if ch = unit '*' then r.quantified .star
    else if ch = unit '+' then r.quantified .plus
    else if ch = unit '?' then r.quantified .opt
    else if ch = unit '[' then some { r with mode := .opened }
    else if ch ∈ js "()\x7b\x7d" then none
    else some (r.item (.one (.char ch)))

/-- A token in a class -/
def stepInside (r : Reading) (ranges : List (UInt16 × UInt16)) (last : Option UInt16) :
    Token → Option Reading
  | .escaped ch => if isPunctuation ch then some (r.classAtom ranges last ch) else none
  | .raw ch =>
    if ch = unit ']' then some (r.item (.one (.set (single ranges last))))
    else
      match last with
      | some lo =>
        if ch = unit '-' then some { r with mode := .range ranges lo }
        else some (r.classAtom ranges last ch)
      | none => some (r.classAtom ranges last ch)

/-- A token after `lo-` -/
def stepRange (r : Reading) (ranges : List (UInt16 × UInt16)) (lo : UInt16) : Token → Option Reading
  | .escaped ch => if isPunctuation ch then r.classRange ranges lo ch else none
  | .raw ch =>
    if ch = unit ']' then
      some (r.item (.one (.set (single (single ranges (some lo)) (some (unit '-'))))))
    else r.classRange ranges lo ch

/-- One token. Classes that start with `^` are not read. -/
def step (r : Reading) (token : Token) : Option Reading :=
  match r.mode with
  | .term => r.stepTerm token
  | .opened => if token = .raw (unit '^') then none else r.stepInside [] none token
  | .inside ranges last => r.stepInside ranges last token
  | .range ranges lo => r.stepRange ranges lo token

/-- The end of the pattern -/
def finish (r : Reading) : Option (Pattern Atom) :=
  match r.mode with
  | .term => some (r.items.reverse :: r.alternatives).reverse
  | _ => none

end Reading

/-- The pattern that a string spells. -/
def parse (source : JSString) : Option (Pattern Atom) :=
  (tokens source).bind fun list => (list.foldlM Reading.step {}).bind Reading.finish

/-- `new RegExp(source, 'i')`, and then `test`. It is a `SyntaxError` where there is no
expression. What `parse` does not read is left to the engine. -/
structure Engine (table : CaseTable) where
  newRegExp : JSString → Option (JSString → Bool)
  newRegExp_parse : ∀ source pattern, parse source = some pattern →
    newRegExp source = some (pattern.test (Atom.sat table.canonicalize))

/-- The engine that takes nothing but what `parse` reads. -/
def Engine.plain (table : CaseTable) : Engine table where
  newRegExp source := (parse source).map fun pattern => pattern.test (Atom.sat table.canonicalize)
  newRegExp_parse source pattern reads := by rw [reads, map_some]

example : parse (js "^[a-z0-9\\-_]*d\\.com|[\\.\\*].*$") = some
        [[.start, .star (.set [(0x61, 0x7A), (0x30, 0x39), (0x2D, 0x2D), (0x5F, 0x5F)]),
            .one (.char 0x64), .one (.char 0x2E), .one (.char 0x63), .one (.char 0x6F),
            .one (.char 0x6D)],
          [.one (.set [(0x2E, 0x2E), (0x2A, 0x2A)]), .star .any, .stop]] := by
  decide

/-! ## Reading piece by piece -/

section Spells

variable {r : Reading} {source source' rest : JSString} {items items' : List (Item Atom)}
  {ch : UInt16}

/-- The rest of a pattern, read from the middle -/
def parseFrom (r : Reading) (source : JSString) : Option (Pattern Atom) :=
  (tokens source).bind fun list => (list.foldlM Reading.step r).bind Reading.finish

theorem parseFrom_raw (plain : ch ≠ unit '\\') :
    parseFrom r (ch :: rest) = (r.step (.raw ch)).bind fun r => parseFrom r rest := by
  have first : tokens (ch :: rest) = (tokens rest).map (.raw ch :: ·) := by
    cases rest with
    | nil =>
      have alone : tokens [ch] = some [.raw ch] := if_neg plain
      rw [alone]
      rfl
    | cons => rw [tokens, if_neg plain]
  rw [parseFrom, first]
  cases read : tokens rest with
  | none => simp [parseFrom, read]
  | some list => simp [parseFrom, read, Option.bind_assoc]

theorem parseFrom_escaped : parseFrom r (unit '\\' :: ch :: rest) =
    (r.step (.escaped ch)).bind fun r => parseFrom r rest := by
  rw [parseFrom, tokens, if_pos rfl]
  cases read : tokens rest with
  | none => simp [parseFrom, read]
  | some list => simp [parseFrom, read, Option.bind_assoc]

/-- A piece of a pattern that is read as items, wherever it stands between terms. -/
def Spells (source : JSString) (items : List (Item Atom)) : Prop :=
  ∀ (r : Reading) (rest : JSString), r.mode = .term →
    parseFrom r (source ++ rest) = parseFrom { r with items := items.reverse ++ r.items } rest

theorem Spells.nil : Spells [] [] := by
  intro r rest _
  rfl

theorem Spells.append (first : Spells source items) (second : Spells source' items') :
    Spells (source ++ source') (items ++ items') := by
  intro r rest between
  rw [append_assoc, first r _ between, reverse_append, append_assoc]
  exact second _ rest between

theorem parse_of_spells (spells : Spells source items) : parse source = some [items] := by
  have whole := spells {} [] rfl
  rw [append_nil] at whole
  calc
    parse source = parseFrom {} source := rfl
    _ = parseFrom { items := items.reverse ++ [] } [] := whole
    _ = some [items] := by simp [parseFrom, tokens, Reading.finish]

/-- The characters that mean something between terms -/
def syntaxCharacters : JSString := js "\\|^$.*+?[()\x7b\x7d"

theorem spells_char (plain : ch ∉ syntaxCharacters) : Spells [ch] [.one (.char ch)] := by
  intro r rest between
  have no : ∀ c ∈ syntaxCharacters, ch ≠ c := by
    rintro c mem rfl
    exact plain mem
  have group : ch ∉ js "()\x7b\x7d" := by
    intro mem
    have sub : js "()\x7b\x7d" ⊆ syntaxCharacters := by decide
    exact plain (sub mem)
  rw [singleton_append, parseFrom_raw (no _ (by decide)), Reading.step, between]
  simp only [Reading.stepTerm]
  rw [if_neg (no _ (by decide)), if_neg (no _ (by decide)), if_neg (no _ (by decide)),
    if_neg (no _ (by decide)), if_neg (no _ (by decide)), if_neg (no _ (by decide)),
    if_neg (no _ (by decide)), if_neg (no _ (by decide)), if_neg group, bind_some,
    Reading.item, ← between]
  rfl

theorem spells_escape (punctuation : isPunctuation ch = true) :
    Spells [unit '\\', ch] [.one (.char ch)] := by
  intro r rest between
  rw [cons_append, singleton_append, parseFrom_escaped, Reading.step, between]
  simp only [Reading.stepTerm]
  rw [if_pos punctuation, bind_some, Reading.item, ← between]
  rfl

theorem spells_any : Spells [unit '.'] [.one .any] := by
  intro r rest between
  rw [singleton_append, parseFrom_raw (by decide), Reading.step, between]
  rfl

end Spells

/-! ## Case -/

namespace CaseTable

variable {table : CaseTable} {ch : UInt16}

theorem canonicalize_lower (low : 0x61 ≤ ch) (high : ch ≤ 0x7A) :
    table.canonicalize ch = ch - 0x20 := by
  rw [canonicalize, table.lower ch low high]
  have small : ¬0x80 ≤ ch := by
    simp only [UInt16.le_iff_toNat_le, UInt16.reduceToNat] at high ⊢
    omega
  exact if_neg fun both => small both.1

theorem canonicalize_other (ascii : ch < 0x80) (other : ¬(0x61 ≤ ch ∧ ch ≤ 0x7A)) :
    table.canonicalize ch = ch := by
  rw [canonicalize, table.other ch ascii other]
  exact ite_self ch

theorem canonicalize_beyond (beyond : 0x80 ≤ ch) : 0x80 ≤ table.canonicalize ch := by
  rw [canonicalize]
  split
  · next cu _ =>
      split
      · exact beyond
      · next stays => exact UInt16.not_lt.mp fun small => stays ⟨beyond, small⟩
  · exact beyond

theorem canonicalize_eq_iff {mark : UInt16} (ascii : mark < 0x80)
    (symbol : mark < 0x41 ∨ 0x5A < mark ∧ mark < 0x61 ∨ 0x7A < mark) :
    table.canonicalize mark = table.canonicalize ch ↔ mark = ch := by
  constructor
  · intro same
    have notLower : ¬(0x61 ≤ mark ∧ mark ≤ 0x7A) := by
      simp only [UInt16.le_iff_toNat_le, UInt16.lt_iff_toNat_lt, UInt16.reduceToNat] at symbol ⊢
      omega
    rw [canonicalize_other ascii notLower] at same
    by_cases small : ch < 0x80
    · by_cases lower : 0x61 ≤ ch ∧ ch ≤ 0x7A
      · rw [canonicalize_lower lower.1 lower.2] at same
        subst same
        exfalso
        simp only [UInt16.le_iff_toNat_le, UInt16.lt_iff_toNat_lt,
          UInt16.reduceToNat] at symbol lower
        have above : (0x20 : UInt16) ≤ ch := by
          simp only [UInt16.le_iff_toNat_le, UInt16.reduceToNat]
          omega
        simp only [UInt16.toNat_sub_of_le _ _ above, UInt16.reduceToNat] at symbol
        omega
      rw [canonicalize_other small lower] at same
      exact same
    exfalso
    have beyond : 0x80 ≤ table.canonicalize ch := canonicalize_beyond (UInt16.not_lt.mp small)
    rw [← same] at beyond
    exact UInt16.not_lt.mpr beyond ascii
  rintro rfl
  rfl

end CaseTable

end IoJs.RegExp
