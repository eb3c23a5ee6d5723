import IoJs.Path.Posix
import Mathlib.Data.List.DropRight

/-!
# Relative paths of POSIX

`resolve` takes its arguments from right to left until the path is absolute; what comes out is where
one would be after changing the directory to one argument after the other (`resolve_eq`).
-/

namespace IoJs.Path

open IoJs.Stream IoJs.RegExp IoJs.Library List
open IoJs.Library.Position (start go walk)

/-- `trim` of `relative` -/
def trim (arr : List JSString) : List JSString :=
  (arr.dropWhile fun p => p = []).rdropWhile fun p => p = []

/-- `samePartsLength` of `relative` -/
def samePartsLength : List JSString → List JSString → Nat
  | a :: as, b :: bs => if a ≠ b then 0 else samePartsLength as bs + 1
  | _, _ => 0

namespace Posix

/-- The loop of `resolve`, with the arguments that are left, the last one first -/
def resolveLoop : List JSString → JSString → Bool → JSString × Bool
  | [], resolvedPath, resolvedAbsolute => (resolvedPath, resolvedAbsolute)
  | path :: rest, resolvedPath, resolvedAbsolute =>
    if resolvedAbsolute then (resolvedPath, resolvedAbsolute)
    -- skip empty entries
    else if path = [] then resolveLoop rest resolvedPath resolvedAbsolute
    else resolveLoop rest (path ++ slash :: resolvedPath) (isAbsolute path)

/-- `posix.resolve` -/
def resolve (cwd : JSString) (paths : List JSString) : JSString :=
  let collected := resolveLoop (cwd :: paths).reverse [] false
  let resolvedAbsolute := collected.2
  let resolvedPath :=
    [slash].intercalate (normalizeArray (collected.1.splitOn slash) !resolvedAbsolute)
  let result := (if resolvedAbsolute then [slash] else []) ++ resolvedPath
  if result = [] then dot else result

/-- The parts of a resolved path, as `relative` takes them -/
def resolvedParts (cwd path : JSString) : List JSString :=
  trim (((resolve cwd [path]).drop 1).splitOn slash)

/-- `posix.relative` -/
def relative (cwd origin target : JSString) : JSString :=
  let fromParts := resolvedParts cwd origin
  let toParts := resolvedParts cwd target
  let same := samePartsLength fromParts toParts
  let outputParts := List.replicate (fromParts.length - same) dotdot
  [slash].intercalate (outputParts ++ toParts.drop same)

variable {cwd path : JSString} {paths : List JSString}

/-! ## Resolving -/

/-- Changing the directory -/
def cd (q : Position JSString) (path : JSString) : Position JSString :=
  if path = [] then q
  else if isAbsolute path then destination false path
  else walk false q ((path.splitOn slash).map move)

theorem walk_moves_append_slash (q : Position JSString) (path resolvedPath : JSString) :
    walk false q (((path ++ slash :: resolvedPath).splitOn slash).map move) =
      walk false (walk false q ((path.splitOn slash).map move))
        ((resolvedPath.splitOn slash).map move) := by
  rw [splitOn_append_cons_self, map_append, Position.walk_append]

theorem resolveLoop_of_absolute (rest : List JSString) (resolvedPath : JSString) :
    resolveLoop rest resolvedPath true = (resolvedPath, true) := by
  cases rest with
  | nil => rfl
  | cons => rfl

theorem resolveLoop_eq (absolute : isAbsolute cwd = true) (paths : List JSString)
    (resolvedPath : JSString) :
    ∃ path, resolveLoop (cwd :: paths).reverse resolvedPath false = (path, true) ∧
      destination false path = walk false (paths.foldl cd (destination false cwd))
        ((resolvedPath.splitOn slash).map move) := by
  induction paths using List.reverseRecOn generalizing resolvedPath with
  | nil =>
    have filled : cwd ≠ [] := (isAbsolute_iff.mp absolute).1
    refine ⟨cwd ++ slash :: resolvedPath, ?_, walk_moves_append_slash start cwd resolvedPath⟩
    change resolveLoop [cwd] resolvedPath false = _
    rw [resolveLoop, if_neg Bool.false_ne_true, if_neg filled, absolute]
    rfl
  | append_singleton paths last ih =>
    have reversed : (cwd :: (paths ++ [last])).reverse = last :: (cwd :: paths).reverse := by simp
    rw [reversed, resolveLoop, if_neg Bool.false_ne_true, foldl_append, foldl_cons, foldl_nil, cd]
    by_cases empty : last = []
    · rw [if_pos empty, if_pos empty]
      exact ih resolvedPath
    rw [if_neg empty, if_neg empty]
    by_cases absolute' : isAbsolute last = true
    · rw [absolute', resolveLoop_of_absolute, if_pos rfl]
      exact ⟨_, rfl, walk_moves_append_slash start last resolvedPath⟩
    obtain ⟨path, result, leads⟩ := ih (last ++ slash :: resolvedPath)
    rw [Bool.eq_false_iff.mpr absolute', if_neg Bool.false_ne_true]
    refine ⟨path, result, ?_⟩
    rw [leads, walk_moves_append_slash]

/-- Where a path is resolved to -/
structure Resolved (path : JSString) (q : Position JSString) : Prop where
  written : path = assemble true false q.names
  rooted : q.ups = 0
  proper : ∀ name ∈ q.names, Proper name ∧ slash ∉ name

theorem resolve_eq (absolute : isAbsolute cwd = true) (paths : List JSString) :
    Resolved (resolve cwd paths) (paths.foldl cd (destination false cwd)) := by
  obtain ⟨path, collected, leads⟩ := resolveLoop_eq absolute paths []
  have stays : walk false (paths.foldl cd (destination false cwd))
      ((([] : JSString).splitOn slash).map move) = paths.foldl cd (destination false cwd) := rfl
  rw [stays] at leads
  rw [← leads]
  have rooted : (destination false path).ups = 0 := ups_place_false _
  have names : render (destination false path) = (destination false path).names := by
    rw [render, rooted]
    rfl
  have body (parts : List JSString) :
      writeTail slash true false parts = [slash].intercalate parts := by
    simp [writeTail]
  refine ⟨?_, rooted, ?_⟩
  · rw [resolve, collected]
    simp only [normalizeArray_eq, assemble, body, ← names]
    exact if_neg (cons_ne_nil _ _)
  intro name mem
  have proper := proper_render false path name (names ▸ mem)
  exact ⟨(mem_names_place mem).2, proper.2⟩

/-! ## Going from one place to another -/

variable {q q' : Position JSString} {names names' : List JSString}

theorem trim_of_filled (filled : ∀ p ∈ names, p ≠ []) : trim names = names := by
  have first : names.dropWhile (fun p => p = []) = names := by
    cases names with
    | nil => rfl
    | cons name =>
      refine dropWhile_cons_of_neg ?_
      rw [decide_eq_true_iff]
      exact filled name mem_cons_self
  rw [trim, first]
  refine rdropWhile_eq_self_iff.mpr fun some_ => ?_
  rw [decide_eq_true_iff]
  exact filled _ (getLast_mem some_)

theorem Resolved.parts (resolved : Resolved path q) :
    trim ((path.drop 1).splitOn slash) = q.names := by
  have filled : ∀ p ∈ q.names, p ≠ [] := fun p mem => (resolved.proper p mem).1.filled
  have read := splitOn_writeTail true false
    (fun p mem => ⟨filled p mem, (resolved.proper p mem).2⟩) (by decide)
  rw [resolved.written]
  change trim ((writeTail slash true false q.names).splitOn slash) = q.names
  rw [read, tailComponents]
  by_cases empty : q.names = []
  · rw [empty]
    rfl
  rw [if_neg empty]
  exact trim_of_filled filled

theorem take_samePartsLength (as bs : List JSString) :
    as.take (samePartsLength as bs) = bs.take (samePartsLength as bs) := by
  fun_induction samePartsLength as bs with
  | case1 a as b bs other => rfl
  | case2 a as b bs same ih => rw [take_succ_cons, take_succ_cons, ih, Decidable.not_not.mp same]
  | case3 => rfl

theorem samePartsLength_le (as bs : List JSString) :
    samePartsLength as bs ≤ as.length ∧ samePartsLength as bs ≤ bs.length := by
  fun_induction samePartsLength as bs with
  | case1 a as b bs other | case3 => exact ⟨Nat.zero_le _, Nat.zero_le _⟩
  | case2 a as b bs same ih => exact ⟨Nat.succ_le_succ ih.1, Nat.succ_le_succ ih.2⟩

theorem length_le_samePartsLength {common as bs : List JSString} (first : common <+: as)
    (second : common <+: bs) : common.length ≤ samePartsLength as bs := by
  induction common generalizing as bs with
  | nil => exact Nat.zero_le _
  | cons c common ih =>
    obtain ⟨as, rfl⟩ := first
    obtain ⟨bs, rfl⟩ := second
    rw [cons_append, cons_append, samePartsLength, if_neg (not_not_intro rfl)]
    exact Nat.succ_le_succ (ih (prefix_append _ _) (prefix_append _ _))

theorem walk_relative (same : Nat) (le : same ≤ q.names.length) (rest : List JSString)
    (proper : ∀ name ∈ rest, Proper name) :
    walk false q ((List.replicate (q.names.length - same) dotdot ++ rest).map move) =
      { q with names := q.names.take same ++ rest } := by
  have back : q.names.length - (q.names.length - same) = same := by omega
  have down : rest.map move = rest.map .down :=
    map_congr_left fun name mem => move_of_proper (proper name mem)
  rw [map_append, map_replicate, move_dotdot, down, Position.walk_append,
    Position.walk_ups false q (Nat.sub_le _ _), Position.walk_downs, back]

/-- The way up to the common part, and down again, leads to the target. -/
theorem cd_relative (same : Nat) (le : same ≤ q.names.length)
    (common : q.names.take same = q'.names.take same) (rooted : q.ups = q'.ups)
    (proper : ∀ name ∈ q'.names, Proper name ∧ slash ∉ name) :
    cd q ([slash].intercalate
      (List.replicate (q.names.length - same) dotdot ++ q'.names.drop same)) = q' := by
  have whole : { q with names := q.names.take same ++ q'.names.drop same } = q' := by
    rw [common, take_append_drop, rooted]
  have rest : ∀ name ∈ q'.names.drop same, Proper name ∧ slash ∉ name :=
    fun name mem => proper name (mem_of_mem_drop mem)
  have parts : ∀ p ∈ List.replicate (q.names.length - same) dotdot ++ q'.names.drop same,
      p ≠ [] ∧ slash ∉ p := by
    intro p mem
    rcases mem_append.mp mem with up | name
    · rw [eq_of_mem_replicate up]
      exact ⟨by decide, by decide⟩
    · exact ⟨(rest p name).1.filled, (rest p name).2⟩
  have leads := walk_relative same le _ fun name mem => (rest name mem).1
  rw [whole] at leads
  generalize List.replicate (q.names.length - same) dotdot ++ q'.names.drop same = outputParts at *
  rw [cd]
  by_cases empty : outputParts = []
  · rw [empty] at leads ⊢
    exact leads
  have filled : [slash].intercalate outputParts ≠ [] :=
    intercalate_ne_nil slash empty fun p mem => (parts p mem).1
  have read : ([slash].intercalate outputParts).splitOn slash = outputParts :=
    splitOn_intercalate slash (fun p mem => (parts p mem).2) empty
  have relative : ¬isAbsolute ([slash].intercalate outputParts) = true := by
    intro absolute
    have first := (isAbsolute_iff.mp absolute).2
    rw [read] at first
    exact (parts [] (mem_of_head? first)).1 rfl
  rw [if_neg filled, if_neg relative, read, leads]

/-- The components of a path -/
def namesOf (path : JSString) : List JSString := (path.splitOn slash).filter fun p => p ≠ []

theorem Resolved.namesOf (resolved : Resolved path q) : namesOf path = q.names := by
  have proper : ∀ p ∈ q.names, p ≠ [] ∧ slash ∉ p :=
    fun p mem => ⟨(resolved.proper p mem).1.filled, (resolved.proper p mem).2⟩
  rw [Posix.namesOf, resolved.written, splitOn_assemble _ _ proper, components, tailComponents]
  by_cases empty : q.names = []
  · rw [empty]
    rfl
  rw [if_neg empty]
  change q.names.filter (fun p => p ≠ []) = q.names
  refine filter_eq_self.mpr fun p mem => ?_
  rw [decide_eq_true_iff]
  exact (proper p mem).1

/-- **`relative` inverts `resolve`**: it goes up to what both paths have in common, and down to the
target. -/
theorem resolve_relative (absolute : isAbsolute cwd = true) (origin target : JSString) :
    resolve cwd [origin, relative cwd origin target] = resolve cwd [target] ∧
      ∃ common : List JSString, (∀ other, other <+: common ↔
          other <+: namesOf (resolve cwd [origin]) ∧ other <+: namesOf (resolve cwd [target])) ∧
        relative cwd origin target = [slash].intercalate
          (List.replicate ((namesOf (resolve cwd [origin])).length - common.length) dotdot ++
            (namesOf (resolve cwd [target])).drop common.length) := by
  have here := resolve_eq absolute [origin]
  have there := resolve_eq absolute [target]
  have both := resolve_eq absolute [origin, relative cwd origin target]
  rw [foldl_cons, foldl_nil] at here there
  rw [foldl_cons, foldl_cons, foldl_nil] at both
  have result : relative cwd origin target = [slash].intercalate (List.replicate
        ((cd (destination false cwd) origin).names.length -
          samePartsLength (cd (destination false cwd) origin).names
            (cd (destination false cwd) target).names) dotdot ++
        (cd (destination false cwd) target).names.drop
          (samePartsLength (cd (destination false cwd) origin).names
            (cd (destination false cwd) target).names)) := by
    rw [relative, resolvedParts, resolvedParts, here.parts, there.parts]
  have names := here.namesOf
  have names' := there.namesOf
  generalize cd (destination false cwd) origin = q at *
  generalize cd (destination false cwd) target = q' at *
  have common := take_samePartsLength q.names q'.names
  have le := samePartsLength_le q.names q'.names
  refine ⟨?_, q.names.take (samePartsLength q.names q'.names), ?_, ?_⟩
  · have leads := cd_relative _ le.1 common (here.rooted.trans there.rooted.symm) there.proper
    rw [← result] at leads
    rw [leads] at both
    rw [both.written, there.written]
  · intro other
    rw [names, names']
    constructor
    · intro begins
      exact ⟨begins.trans (List.take_prefix _ _), begins.trans (common ▸ take_prefix _ _)⟩
    rintro ⟨first, second⟩
    exact prefix_take_iff.mpr ⟨first, length_le_samePartsLength first second⟩
  · rw [result, names, names', length_take_of_le le.1]

/-- From a path in the current directory to another one -/
theorem resolve_relative_sibling : relative (js "/home") (js "a/b") (js "/home/c/") = js "../../c" ∧
    resolve (js "/home") [js "a/b", relative (js "/home") (js "a/b") (js "/home/c/")] =
      resolve (js "/home") [js "/home/c/"] :=
  ⟨by decide, (resolve_relative (by decide) (js "a/b") (js "/home/c/")).1⟩

/-! ## One argument after the other -/

theorem Resolved.filled (resolved : Resolved path q) : ∀ p ∈ q.names, p ≠ [] ∧ slash ∉ p :=
  fun p mem => ⟨(resolved.proper p mem).1.filled, (resolved.proper p mem).2⟩

theorem Resolved.destination (resolved : Resolved path q) : Posix.destination false path = q := by
  have moves : q.names.map move = q.names.map .down :=
    map_congr_left fun p mem => move_of_proper (resolved.proper p mem).1
  have down : walk false start (q.names.map .down) = ⟨0, q.names⟩ := Position.walk_downs false _ _
  rw [resolved.written, destination_assemble false resolved.filled, place, moves, down,
    ← resolved.rooted]

theorem Resolved.canonical (resolved : Resolved path q) : Canonical path := by
  have names : render q = q.names := by
    rw [render, resolved.rooted]
    rfl
  rw [resolved.written, ← names]
  exact canonical_assemble (fun p mem => (resolved.proper p mem).1) (names ▸ resolved.filled)
    fun _ => resolved.rooted

/-- A resolved path ends with a slash only where it is the root. -/
theorem Resolved.root_of_trailingSlash (resolved : Resolved path q)
    (last : trailingSlash path = true) : path = [slash] := by
  rw [resolved.written] at last ⊢
  rcases (trailingSlash_assemble true false resolved.filled).mp last with kept | ⟨-, root⟩
  · exact absurd kept Bool.false_ne_true
  rw [root]
  rfl

/-- **Arguments are resolved one after the other**: the later ones in the directory to which the
earlier ones lead. What comes out is absolute and canonical, ends with a slash only at the root,
and is resolved to itself. -/
theorem resolve_append (absolute : isAbsolute cwd = true) (first second : List JSString) :
    resolve cwd (first ++ second) = resolve (resolve cwd first) second ∧
      isAbsolute (resolve cwd first) = true ∧ Canonical (resolve cwd first) ∧
      (trailingSlash (resolve cwd first) = true → resolve cwd first = [slash]) ∧
      resolve cwd [resolve cwd first] = resolve cwd first := by
  have here := resolve_eq absolute first
  have rooted : isAbsolute (resolve cwd first) = true := by
    rw [here.written]
    exact isAbsolute_assemble here.filled
  refine ⟨?_, rooted, here.canonical, here.root_of_trailingSlash, ?_⟩
  · have both := resolve_eq absolute (first ++ second)
    rw [foldl_append, ← here.destination] at both
    rw [both.written, (resolve_eq rooted second).written]
  · have again := resolve_eq absolute [resolve cwd first]
    have leads : cd (Posix.destination false cwd) (resolve cwd first) =
        first.foldl cd (Posix.destination false cwd) := by
      rw [cd, if_neg (isAbsolute_iff.mp rooted).1, if_pos rooted, here.destination]
    rw [foldl_cons, foldl_nil, leads] at again
    rw [again.written, here.written]

/-- Up from a directory that an earlier argument named -/
theorem resolve_append_sibling : resolve (js "/home") [js "a/b", js "../c"] =
    resolve (resolve (js "/home") [js "a/b"]) [js "../c"] ∧
    resolve (js "/home") [js "a/b", js "../c"] = js "/home/a/c" :=
  ⟨(resolve_append (by decide) [js "a/b"] [js "../c"]).1, by decide⟩

end Posix

end IoJs.Path
