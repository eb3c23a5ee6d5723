import IoJs.Library.Backtracking
import IoJs.Path.Components

/-!
# Splitting a path

The directory, the last component and its extension are the groups of one regular expression, for
POSIX and for Windows but for the separators. The directory is a lazy group; so it ends at the first
position behind which there is one component at most, and separators.
-/

namespace IoJs.Path

open IoJs.Stream IoJs.RegExp IoJs.Library.Backtracking List Option
open IoJs.Library.Backtracking.Regex (opt someLazy Matches)

/-- `'.'`, as a code unit -/
def period : UInt16 := unit '.'

section Patterns

variable (isSep : UInt16 → Bool)

def baseRe : Regex UInt16 :=
  .alt (.seq (.one (· == period)) (opt (.one (· == period))))
    (.alt (someLazy fun c => !isSep c) .empty)

def extRe : Regex UInt16 :=
  .alt (.seq (.one (· == period)) (.many fun c => c != period && !isSep c)) .empty

def trailRe : Regex UInt16 := .many isSep

/-- `((?:\.{1,2}|[^\/]+?|)(\.[^.\/]*|))(?:[\/]*)$`: both groups -/
def splitBase (input : JSString) : Option (JSString × JSString) :=
  (baseRe isSep).exec (fun rest =>
    (extRe isSep).exec (fun rest' =>
      (trailRe isSep).exec (fun stop =>
        if stop = [] then some (consumed input rest', consumed rest rest') else none) rest') rest)
    input

/-- The groups of a path behind its root -/
structure Parts where
  dir : JSString
  base : JSString
  ext : JSString

/-- What is behind `([\s\S]*?)` in a text gives the other groups. -/
def partsFrom (text rest : JSString) : Option Parts :=
  (splitBase isSep rest).map fun groups =>
    { dir := consumed text rest, base := groups.1, ext := groups.2 }

/-- `([\s\S]*?)`, and what follows -/
def splitParts (text : JSString) : Option Parts :=
  (Regex.manyLazy fun _ => true).exec (partsFrom isSep text) text

/-- What the groups are -/
structure Cut (text : JSString) (parts : Parts) : Prop where
  whole : ∃ trail, text = parts.dir ++ parts.base ++ trail ∧ ∀ c ∈ trail, isSep c = true
  free : ∀ c ∈ parts.base, isSep c = false
  bound : parts.dir = [] ∨ ∃ c, parts.dir.getLast? = some c ∧ isSep c = true
  empty : parts.base = [] → parts.dir = []
  suffix : parts.ext <:+ parts.base
  dotted : parts.ext = [] ∨ ∃ rest, parts.ext = period :: rest ∧ period ∉ rest

end Patterns

variable {isSep : UInt16 → Bool} {text input base ext trail l : JSString}

/-! ## The last component -/

section

variable (noDot : isSep period = false)
include noDot

theorem free_of_matches_baseRe (text : Matches (baseRe isSep) l) : ∀ c ∈ l, isSep c = false := by
  rw [baseRe, Regex.matches_alt_iff, Regex.matches_alt_iff, Regex.matches_someLazy_iff] at text
  rcases text with dots | ⟨-, free⟩ | none
  · have all : ∀ c ∈ l, c = period := by
      simp only [opt, Regex.matches_seq_iff, Regex.matches_alt_iff, Regex.matches_one_iff,
        Regex.matches_empty_iff, beq_iff_eq, exists_eq_left] at dots
      obtain ⟨m, n, rfl, rfl | rfl, rfl⟩ := dots
      · simp
      · simp
    intro c mem
    rw [all c mem, noDot]
  · intro c mem
    exact Bool.not_eq_true' _ ▸ free c mem
  rw [Regex.matches_empty_iff.mp none]
  exact forall_mem_nil _

theorem of_matches_extRe (text : Matches (extRe isSep) l) :
    (∀ c ∈ l, isSep c = false) ∧ (l = [] ∨ ∃ rest, l = period :: rest ∧ period ∉ rest) := by
  rw [extRe, Regex.matches_alt_iff, Regex.matches_seq_iff, Regex.matches_empty_iff] at text
  rcases text with ⟨m, rest, dot, plain, rfl⟩ | rfl
  · obtain ⟨c, isDot, rfl⟩ := Regex.matches_one_iff.mp dot
    obtain rfl := beq_iff_eq.mp isDot
    simp only [Regex.matches_many_iff, Bool.and_eq_true, bne_iff_ne, Bool.not_eq_true'] at plain
    exact ⟨forall_mem_cons.mpr ⟨noDot, fun c mem => (plain c mem).2⟩,
      .inr ⟨rest, rfl, fun mem => (plain _ mem).1 rfl⟩⟩
  · exact ⟨forall_mem_nil _, .inl rfl⟩

theorem splitBase_spec (found : splitBase isSep input = some (base, ext)) :
    ∃ trail, input = base ++ trail ∧ (∀ c ∈ trail, isSep c = true) ∧ (∀ c ∈ base, isSep c = false) ∧
      ext <:+ base ∧ (ext = [] ∨ ∃ rest, ext = period :: rest ∧ period ∉ rest) := by
  obtain ⟨front, rest, rfl, isFront, found⟩ := Regex.exists_of_exec found
  obtain ⟨tail, rest, rfl, isTail, found⟩ := Regex.exists_of_exec found
  obtain ⟨trail, stop, rfl, isTrail, found⟩ := Regex.exists_of_exec found
  split_ifs at found with done
  subst done
  obtain ⟨free, dotted⟩ := of_matches_extRe noDot isTail
  rw [append_nil, ← append_assoc, consumed_append, consumed_append] at found
  obtain ⟨rfl, rfl⟩ := Prod.mk.inj (some.inj found)
  refine ⟨trail, by rw [append_nil, append_assoc], Regex.matches_many_iff.mp isTrail, ?_,
    suffix_append front tail, dotted⟩
  exact forall_mem_append.mpr ⟨free_of_matches_baseRe noDot isFront, free⟩

end

theorem isSome_splitBase (free : ∀ c ∈ base, isSep c = false) (all : ∀ c ∈ trail, isSep c = true) :
    (splitBase isSep (base ++ trail)).isSome = true := by
  have isBase : Matches (baseRe isSep) base := by
    rw [baseRe, Regex.matches_alt_iff, Regex.matches_alt_iff, Regex.matches_someLazy_iff,
      Regex.matches_empty_iff]
    by_cases empty : base = []
    · exact .inr (.inr empty)
    · exact .inr (.inl ⟨empty, fun c mem => by rw [free c mem]; rfl⟩)
  -- no extension, and all separators
  apply Regex.isSome_exec isBase
  refine Regex.isSome_exec_iff.mpr ⟨[], trail, rfl, .altRight .empty, ?_⟩
  exact Regex.isSome_exec_iff.mpr ⟨trail, [], (append_nil trail).symm, .many all, rfl⟩

/-! ## The directory -/

theorem partsFrom_eq {rest : JSString} (before : JSString)
    (found : splitBase isSep rest = some (base, ext)) :
    partsFrom isSep (before ++ rest) rest = some ⟨before, base, ext⟩ := by
  rw [partsFrom, found, map_some, consumed_append]

theorem cut_of_splitBase (noDot : isSep period = false)
    (found : splitBase isSep input = some (base, ext)) : Cut isSep input ⟨[], base, ext⟩ := by
  obtain ⟨trail, whole, all, free, suffix, dotted⟩ := splitBase_spec noDot found
  exact ⟨⟨trail, whole, all⟩, free, .inl rfl, fun _ => rfl, suffix, dotted⟩

theorem Cut.cons {c : UInt16} {parts : Parts} (cut : Cut isSep input parts)
    (none : splitBase isSep (c :: input) = none) :
    Cut isSep (c :: input) { parts with dir := c :: parts.dir } := by
  obtain ⟨trail, whole, all⟩ := cut.whole
  -- else all of it would be a component and separators
  have deeper : parts.dir = [] → isSep c = true ∧ parts.base ≠ [] := by
    intro empty
    rw [empty, nil_append] at whole
    have sep : isSep c = true := by
      by_contra other
      have some_ := @isSome_splitBase isSep _ trail
        (forall_mem_cons.mpr ⟨Bool.eq_false_iff.mpr other, cut.free⟩) all
      rw [cons_append, ← whole, none] at some_
      cases some_
    refine ⟨sep, fun noBase => ?_⟩
    have some_ := @isSome_splitBase isSep [] _ (forall_mem_nil _)
      (forall_mem_cons.mpr ⟨sep, all⟩)
    rw [noBase] at whole
    rw [nil_append, ← nil_append trail, ← whole, none] at some_
    cases some_
  refine ⟨⟨trail, by rw [whole]; rfl, all⟩, cut.free, .inr ?_, ?_, cut.suffix, cut.dotted⟩
  · rcases cut.bound with empty | ⟨last, isLast, sep⟩
    · rw [empty]
      exact ⟨c, rfl, (deeper empty).1⟩
    refine ⟨last, ?_, sep⟩
    rw [List.getLast?_cons, isLast]
    rfl
  intro noBase
  exact absurd noBase (deeper (cut.empty noBase)).2

theorem exists_cut_from (noDot : isSep period = false) (before input : JSString) :
    ∃ parts, (Regex.manyLazy fun _ => true).exec (partsFrom isSep (before ++ input)) input =
        some { parts with dir := before ++ parts.dir } ∧
      Cut isSep input parts := by
  induction input generalizing before with
  | nil =>
    have some_ : (splitBase isSep ([] ++ [])).isSome = true :=
      isSome_splitBase (forall_mem_nil _) (forall_mem_nil _)
    obtain ⟨⟨base, ext⟩, found⟩ := isSome_iff_exists.mp some_
    refine ⟨⟨[], base, ext⟩, ?_, cut_of_splitBase noDot found⟩
    exact (partsFrom_eq before found).trans (by rw [append_nil])
  | cons c input ih =>
    rw [Regex.exec_manyLazy_cons rfl]
    cases found : splitBase isSep (c :: input) with
    | some groups =>
      refine ⟨⟨[], groups.1, groups.2⟩, ?_, cut_of_splitBase noDot found⟩
      rw [partsFrom_eq before found, append_nil, some_or]
    | none =>
      obtain ⟨parts, later, cut⟩ := ih (before ++ [c])
      refine ⟨{ parts with dir := c :: parts.dir }, ?_, cut.cons found⟩
      have tried : partsFrom isSep (before ++ c :: input) (c :: input) = none := by
        rw [partsFrom, found, map_none]
      rw [append_assoc, append_assoc, singleton_append, singleton_append] at later
      rw [tried, none_or, later]

theorem exists_cut (noDot : isSep period = false) (text : JSString) :
    ∃ parts, splitParts isSep text = some parts ∧ Cut isSep text parts :=
  exists_cut_from noDot [] text

end IoJs.Path
