import IoJs.Library.DotSegments
import IoJs.Url.Resolve

/-!
# Merging paths

`resolveObject` removes the dots of a path from its end, in an array that also has what is before
the first slash; then it puts slashes at both ends again. What it has written is what RFC 3986 makes
of the path (`intercalate_dottedPath`), and of the path that is merged with that of the base
(`mergePaths_eq`), so `resolve` writes the target of the reference behind the same front
(`resolve_merges`).
-/

namespace IoJs.Url

open IoJs.Stream IoJs.RegExp IoJs.Library List Option
open IoJs.Library.DotSegments (prune closing write target removeDotSegments)

variable {engine : Engine} {base relative result u u' : Url} {last path rest : JSString}
  {init kept srcPath : List JSString} {up : Nat} {removeAllDots trailingSlash : Bool}
variable {segment : JSString}

/-! ## The loop -/

theorem removeDotsAt_append (before after : List JSString) (segment : JSString) (up : Nat) :
    removeDotsAt before.length (before ++ segment :: after, up) =
      (before ++ (prune period segment (after, up)).1, (prune period segment (after, up)).2) := by
  have found : (before ++ segment :: after)[before.length]? = some segment := by simp
  have erased : spliceOne (before ++ segment :: after) before.length = before ++ after := by
    simp [spliceOne, eraseIdx_append_of_length_le (Nat.le_refl _)]
  rw [removeDotsAt, prune]
  simp only [found, erased, Option.some.injEq]
  change (if segment = [period] then _ else if segment = [period, period] then _ else _) = _
  split_ifs
  · rfl
  · rfl
  · rfl
  have none : up = 0 := by omega
  rw [none]

theorem removeDots_append (before after : List JSString) (up : Nat) :
    removeDots before.length (before ++ after, up) = before.foldr (prune period) (after, up) := by
  induction before using List.reverseRecOn generalizing after up with
  | nil => rfl
  | append_singleton before segment ih => simp [removeDots, removeDotsAt_append, ih]

theorem removeDots_all (srcPath : List JSString) :
    removeDots (srcPath.length + 1) (srcPath, 0) = srcPath.foldr (prune period) ([], 0) := by
  -- behind the last segment there is nothing
  have behind : removeDotsAt srcPath.length (srcPath, 0) = (srcPath, 0) := by simp [removeDotsAt]
  rw [removeDots, behind]
  have all := removeDots_append srcPath [] 0
  rw [append_nil] at all
  exact all

/-! ## The slashes at both ends -/

/-- Are there dots at the end of a path, or nothing behind its last slash? -/
def endsOpen (last : JSString) : Bool := last == js "." || last == js ".." || last.isEmpty

theorem addRoot_cons (some_ : segment ≠ []) (plain : slash ∉ segment)
    (kept : List JSString) : addRoot (segment :: kept) = [] :: segment :: kept := by
  obtain ⟨c, rest, rfl⟩ := exists_cons_of_ne_nil some_
  have other : c ≠ slash := fun same => plain (same ▸ mem_cons_self)
  exact if_neg (by simp [isAbsolutePath, other])

theorem addRoot_filled (filled : ∀ segment ∈ kept, segment ≠ [] ∧ slash ∉ segment) :
    addRoot kept = [] :: kept := by
  cases kept with
  | nil => rfl
  | cons segment kept =>
    obtain ⟨some_, plain⟩ := filled segment mem_cons_self
    exact addRoot_cons some_ plain kept

theorem intercalate_root (kept : List JSString) :
    [slash].intercalate ([] :: kept) = write slash kept := by
  by_cases filled : kept = []
  · rw [filled]
    rfl
  rw [intercalate_cons_of_ne_nil filled, ← DotSegments.cons_intercalate filled]
  rfl

theorem addSlash_filled (filled : ∀ segment ∈ kept, segment ≠ [] ∧ slash ∉ segment) :
    addSlash ([] :: kept) = [] :: kept ++ [[]] := by
  cases kept using List.reverseRecOn with
  | nil => rfl
  | append_singleton kept last =>
    obtain ⟨some_, plain⟩ := filled last (mem_append_right _ (mem_singleton_self last))
    have ends : ([slash].intercalate ([] :: (kept ++ [last]))).getLast? ≠ some slash := by
      rw [intercalate_root, DotSegments.write_concat, List.getLast?_append_cons,
        List.getLast?_cons_of_ne_nil some_]
      exact fun last => plain (mem_of_getLast? last)
    rw [addSlash, if_pos ends]

theorem addSlash_open (kept : List JSString) :
    addSlash ([] :: (kept ++ [[]])) = [] :: (kept ++ [[]]) := by
  simp [intercalate_root, DotSegments.write_concat, addSlash]

theorem dottedPath_eq (srcPath : List JSString) :
    dottedPath true removeAllDots trailingSlash srcPath =
      if trailingSlash then addSlash (addRoot (srcPath.foldr (prune period) ([], 0)).1)
      else addRoot (srcPath.foldr (prune period) ([], 0)).1 := by
  rw [dottedPath, removeDots_all]
  simp

theorem addRoot_prune (rooted : addRoot kept = [] :: kept) (left : Nat) :
    addRoot (prune period [] (kept, left)).1 = [] :: kept := by
  have pruned : prune period [] (kept, left) =
      if left ≠ 0 then (kept, left - 1) else ([] :: kept, 0) := by simp [prune]
  rw [pruned]
  split_ifs
  · exact rooted
  · rfl

theorem dottedPath_absolute (filled : ∀ segment ∈ init, segment ≠ [])
    (plain : ∀ segment ∈ init ++ [last], slash ∉ segment) :
    dottedPath true removeAllDots (endsOpen last) ([] :: (init ++ [last])) =
      [] :: (((init ++ [last]).foldr (prune period) ([], 0)).1 ++ closing period last) := by
  have proper {kept : List JSString} (from_ : ∀ segment ∈ kept, segment ∈ init) :
      ∀ segment ∈ kept, segment ≠ [] ∧ slash ∉ segment := fun segment mem =>
    ⟨filled segment (from_ segment mem), plain segment (mem_append_left _ (from_ segment mem))⟩
  rw [dottedPath_eq, foldr_cons, foldr_append, foldr_cons, foldr_nil]
  by_cases dots : last = [period] ∨ last = [period, period]
  · -- the dots are not kept, but an empty segment is put for them
    obtain ⟨ups, none⟩ : ∃ ups, prune period last ([], 0) = ([], ups) := by
      rcases dots with rfl | rfl
      · exact ⟨0, rfl⟩
      · exact ⟨1, rfl⟩
    have opened : endsOpen last = true := by
      rcases dots with rfl | rfl
      · rfl
      · rfl
    obtain ⟨kept, left, eq, from_⟩ := @DotSegments.exists_foldr_prune _ period _ init [] ups
    rw [none, eq, append_nil, closing, if_pos dots, opened, if_pos rfl,
      addRoot_prune (addRoot_filled (proper from_)), addSlash_filled (proper from_)]
    rfl
  obtain ⟨notDot, notDots⟩ := not_or.mp dots
  have itself : prune period last ([], 0) = ([last], 0) := by simp [prune, notDot, notDots]
  obtain ⟨kept, left, eq, from_⟩ := @DotSegments.exists_foldr_prune _ period _ init [last] 0
  rw [itself, eq, closing, if_neg dots, append_nil]
  by_cases empty : last = []
  · subst empty
    change addSlash (addRoot (prune period [] (kept ++ [[]], left)).1) = [] :: (kept ++ [[]])
    cases kept with
    | nil =>
      -- the empty segment at the end passes for the root
      cases left with
      | zero => exact addSlash_open []
      | succ left => rfl
    | cons segment kept =>
      obtain ⟨some_, plainFirst⟩ := proper from_ segment mem_cons_self
      have rooted := addRoot_prune (addRoot_cons some_ plainFirst (kept ++ [[]])) left
      simpa [rooted] using addSlash_open (segment :: kept)
  have closed : endsOpen last = false := by
    change (last == [period] || last == [period, period] || last.isEmpty) = false
    simp [notDot, notDots, empty]
  rw [closed, if_neg Bool.false_ne_true]
  refine addRoot_prune (addRoot_filled fun segment mem => ?_) left
  rcases mem_append.mp mem with inside | ends
  · exact proper from_ segment inside
  · grind

/-! ## Merging -/

/-- The segments of a path, behind its first slash if it is absolute -/
def segments (path : JSString) : List JSString :=
  (if path.head? = some slash then path.drop 1 else path).splitOn slash

/-- Only the last segment may be empty. -/
def NoEmptySegments (path : JSString) : Prop := ∀ segment ∈ (segments path).dropLast, segment ≠ []

instance (path : JSString) : Decidable (NoEmptySegments path) :=
  inferInstanceAs (Decidable (∀ segment ∈ (segments path).dropLast, segment ≠ []))

theorem notMem_segments (mem : segment ∈ segments path) : slash ∉ segment :=
  notMem_of_mem_splitOn mem

theorem exists_segments (path : JSString) : ∃ init last, segments path = init ++ [last] := by
  have filled : segments path ≠ [] := splitOn_ne_nil slash _
  exact ⟨_, _, (dropLast_append_getLast filled).symm⟩

theorem splitOn_absolute (absolute : path.head? = some slash) :
    path.splitOn slash = [] :: segments path ∧ path = write slash (segments path) := by
  obtain ⟨rest, rfl⟩ := List.head?_eq_some_iff.mp absolute
  have tail : segments (slash :: rest) = rest.splitOn slash := by simp [segments]
  rw [tail, ← DotSegments.cons_intercalate (splitOn_ne_nil slash rest), intercalate_splitOn]
  exact ⟨splitOn_append_cons_self [] rest, rfl⟩

theorem splitOn_relative (relative : path.head? ≠ some slash) :
    path.splitOn slash = segments path ∧ path = [slash].intercalate (segments path) := by
  simp [segments, relative]

/-- The array whose dots are removed -/
def mergedParts (base reference : JSString) : List JSString :=
  if reference.head? = some slash then reference.splitOn slash
  else (base.splitOn slash).dropLast ++ reference.splitOn slash

theorem exists_mergedParts {base reference : JSString} (authority : Bool)
    (absolute : base.head? = some slash) (properBase : NoEmptySegments base)
    (proper : NoEmptySegments reference) :
    ∃ init last, mergedParts base reference = [] :: (init ++ [last]) ∧
      (∀ segment ∈ init, segment ≠ []) ∧ (∀ segment ∈ init ++ [last], slash ∉ segment) ∧
        target slash period authority base reference =
          removeDotSegments slash period (write slash (init ++ [last])) := by
  obtain ⟨init, last, split⟩ := exists_segments reference
  rw [NoEmptySegments, split, dropLast_concat] at proper
  have plain : ∀ segment ∈ init ++ [last], slash ∉ segment := by
    rw [← split]
    exact fun segment mem => notMem_segments mem
  by_cases rooted : reference.head? = some slash
  · obtain ⟨parts, whole⟩ := splitOn_absolute rooted
    refine ⟨init, last, ?_, proper, plain, ?_⟩
    · rw [mergedParts, if_pos rooted, parts, split]
    · rw [target, if_pos rooted, ← split, ← whole]
  obtain ⟨above, file, splitBase⟩ := exists_segments base
  rw [NoEmptySegments, splitBase, dropLast_concat] at properBase
  have plainBase : ∀ segment ∈ above ++ [file], slash ∉ segment := by
    rw [← splitBase]
    exact fun segment mem => notMem_segments mem
  obtain ⟨partsBase, wholeBase⟩ := splitOn_absolute absolute
  obtain ⟨parts, whole⟩ := splitOn_relative rooted
  refine ⟨above ++ init, last, ?_, ?_, ?_, ?_⟩
  · rw [mergedParts, if_neg rooted, partsBase, splitBase, parts, split, ← cons_append,
      dropLast_concat, append_assoc]
    rfl
  · intro segment mem
    exact (mem_append.mp mem).elim (properBase segment) (proper segment)
  · intro segment mem
    rw [append_assoc] at mem
    rcases mem_append.mp mem with before | behind
    · exact plainBase segment (mem_append_left _ before)
    · exact plain segment behind
  have plainFile := plainBase file (mem_append_right _ (mem_singleton_self file))
  have merged := @DotSegments.merge_write _ slash _ _ _ authority plainFile
    (append_ne_nil_of_right_ne_nil init (cons_ne_nil last [])) above
  rw [← split, ← whole, ← splitBase, ← wholeBase] at merged
  rw [target, if_neg rooted, merged, split, append_assoc]

/-- The path of what is written -/
def targetOf (base relative : Url) : JSString :=
  target slash period base.slashes (orEmpty base.pathname) (orEmpty relative.pathname)

/-- What `resolveObject` makes of a base and a reference that has only a path -/
def merged (base relative : Url) : Url :=
  { base with
    hash := relative.hash
    search := relative.search
    query := relative.query
    pathname := some (targetOf base relative)
    path := some (targetOf base relative ++ orEmpty relative.search) }

/-- A reference to a path, without scheme and authority -/
structure OnlyPath (relative : Url) : Prop where
  protocol : relative.protocol = none
  slashes : relative.slashes = false
  auth : relative.auth = none
  host : relative.host = none
  hostname : relative.hostname = none
  pathname : isSet relative.pathname = true

theorem hasTrailingSlash_absolute (init : List JSString) (last : JSString) :
    hasTrailingSlash result relative ([] :: (init ++ [last])) = endsOpen last := by
  have long : decide (1 < ([] :: (init ++ [last])).length) = true := by simp
  have ends : ([] :: (init ++ [last])).getLastD [] = last := by rw [← cons_append, getLastD_concat]
  rw [hasTrailingSlash, long, ends, Bool.or_true, Bool.true_and]
  rfl

theorem resolvePath_absolute (filled : ∀ segment ∈ init, segment ≠ [])
    (plain : ∀ segment ∈ init ++ [last], slash ∉ segment) :
    resolvePath result relative false true removeAllDots ([] :: (init ++ [last])) =
      { withPath { result with
          pathname := some (removeDotSegments slash period (write slash (init ++ [last]))) } with
        auth := if isSet relative.auth then relative.auth else result.auth
        slashes := result.slashes || relative.slashes }.withHref := by
  have different : period ≠ slash := by decide
  rw [resolvePath, if_neg (cons_ne_nil _ _), hasTrailingSlash_absolute,
    dottedPath_absolute filled plain, DotSegments.removeDotSegments_write different plain,
    ← intercalate_root]
  simp [isAbsolutePath, withPath]

theorem mergePaths_eq (slashed : base.protocol.any slashedProtocol = true)
    (absolute : (orEmpty base.pathname).head? = some slash) (only : OnlyPath relative)
    (properBase : NoEmptySegments (orEmpty base.pathname))
    (proper : NoEmptySegments (orEmpty relative.pathname)) :
    mergePaths { base with hash := relative.hash } relative = (merged base relative).withHref := by
  obtain ⟨init, last, parts, filled, plain, same⟩ :=
    exists_mergedParts base.slashes absolute properBase proper
  have source : startsWithSlash base.pathname = true := beq_iff_eq.mpr absolute
  have relPath : pathParts relative.pathname = (orEmpty relative.pathname).splitOn slash :=
    if_pos only.pathname
  have srcPath : pathParts base.pathname = (orEmpty base.pathname).splitOn slash := by
    refine if_pos ?_
    obtain ⟨rest, eq⟩ := List.head?_eq_some_iff.mp absolute
    rw [isSet, eq]
    rfl
  have written : resolvePath
      { base with hash := relative.hash, search := relative.search, query := relative.query }
      relative false true true ([] :: (init ++ [last])) = (merged base relative).withHref := by
    rw [resolvePath_absolute filled plain, merged, targetOf, same, only.auth, only.slashes]
    simp [withPath]
  rw [← written, ← parts, mergedParts, mergePaths]
  simp only [slashed, only.host, only.protocol, only.hostname, source, relPath, srcPath, isSet_none,
    Bool.not_true, Bool.and_false, Bool.false_and, Bool.or_true, Bool.true_or, Bool.false_or,
    Bool.not_false, Bool.and_true, if_false, Bool.false_eq_true, none_or]
  by_cases rooted : (orEmpty relative.pathname).head? = some slash
  · have isRelAbs : startsWithSlash relative.pathname = true := beq_iff_eq.mpr rooted
    simp [rooted, isRelAbs]
  have isRelative : ¬startsWithSlash relative.pathname = true := mt beq_iff_eq.mp rooted
  simp [rooted, isRelative, splitOn_ne_nil slash _]

/-! ## What is written -/

/-- What `format` writes before the path -/
def front (u : Url) : Option JSString :=
  (writeAuth u.auth).map fun auth =>
    writeProtocol (orEmpty u.protocol) ++
      if u.writesSlashes (u.writeHost auth) then slash :: slash :: orEmpty (u.writeHost auth)
      else orEmpty (u.writeHost auth)

/-- A URL whose path, search and hash are written as they are -/
structure Ends (u : Url) : Prop where
  pathname : questionMark ∉ orEmpty u.pathname ∧ numberSign ∉ orEmpty u.pathname
  search : headed questionMark (orEmpty u.search) = orEmpty u.search
  searchHash : numberSign ∉ orEmpty u.search
  hash : headed numberSign (orEmpty u.hash) = orEmpty u.hash
  query : u.writeQuery = []

theorem writeSearch_of_query (query : u.writeQuery = []) : u.writeSearch = orEmpty u.search := by
  simp [writeSearch, query, isSet]

theorem Ends.format (ends : Ends u) (absolute : (orEmpty u.pathname).head? = some slash) :
    u.format = (front u).map fun text =>
      text ++ orEmpty u.pathname ++ orEmpty u.search ++ orEmpty u.hash := by
  have path := escapePathname_of_free ends.pathname.1 ends.pathname.2
  have rooted : headed slash (orEmpty u.pathname) = orEmpty u.pathname :=
    if_neg fun both => both.2 absolute
  rw [Url.format, front, Option.map_map]
  refine congrArg (fun write => (writeAuth u.auth).map write) (funext fun auth => ?_)
  simp [assemble, rooted, path, writeSearch_of_query ends.query, ends.search,
    escapeSearch_of_free ends.searchHash, ends.hash]

theorem cutAt_spec (c : UInt16) (rest : JSString) :
    headed c (orEmpty (cutAt c rest).1) = orEmpty (cutAt c rest).1 ∧ c ∉ (cutAt c rest).2 ∧
      (∀ d ∈ orEmpty (cutAt c rest).1, d ∈ rest) ∧ ∀ d ∈ (cutAt c rest).2, d ∈ rest := by
  obtain ⟨free, cut⟩ | ⟨before, after, free, rfl, cut⟩ := exists_cutAt c rest
  · rw [cut]
    exact ⟨headed_nil c, free, fun d mem => absurd mem not_mem_nil, fun d mem => mem⟩
  rw [cut]
  exact ⟨headed_cons c after, free, fun d mem => mem_append_right _ mem,
    fun d mem => mem_append_left _ mem⟩

theorem ends_finish (finished : finish engine u false rest = some u') : Ends u' := by
  obtain ⟨hash, noHash, -, -⟩ := cutAt_spec numberSign rest
  obtain ⟨search, noQuery, inSearch, inPath⟩ := cutAt_spec questionMark (cutAt numberSign rest).2
  rw [finish] at finished
  generalize cutAt numberSign rest = first at finished hash noHash search noQuery inSearch inPath
  obtain ⟨fragment, rest⟩ := first
  dsimp only at finished hash noHash search noQuery inSearch inPath
  generalize cutAt questionMark rest = second at finished search noQuery inSearch inPath
  obtain ⟨query, path⟩ := second
  have inPathname {c : UInt16} {slashed : Bool} (other : c ≠ slash) (free : c ∉ path) :
      c ∉ orEmpty (if path ≠ [] then some path else if slashed then some [slash] else none) := by
    split_ifs
    · exact free
    · exact fun mem => other (mem_singleton.mp mem)
    · exact not_mem_nil
  obtain ⟨href, -, rfl⟩ := withHref_eq_some finished
  refine ⟨⟨inPathname (by decide) noQuery, inPathname (by decide) fun mem => noHash (inPath _ mem)⟩,
    search, fun mem => noHash (inSearch _ mem), hash, ?_⟩
  cases query with
  | none => rfl
  | some => rfl

section

variable (parsed : parse engine path false true = some u)
include parsed

theorem exists_finish_of_parse :
    ∃ start proto rest rest', finish engine start false rest' = some u ∧
      start.protocol = proto.map Buffer.toLowerCase ∧
        start.slashes = (startsWithSlashes rest && !proto.any hostlessProtocol) ∧
          (proto = none → startsWithSlashes rest = false → start = {}) := by
  change parseGeneral engine (trim (replaceBackslashes path)) false true = some u at parsed
  rw [parseGeneral, parseBehind] at parsed
  generalize protocolPattern (trim (replaceBackslashes path)) = proto at parsed
  generalize (trim (replaceBackslashes path)).drop (orEmpty proto).length = rest at parsed
  simp only [Bool.true_or, Bool.true_and] at parsed
  obtain ⟨⟨start, rest'⟩, taken, finished⟩ := bind_eq_some_iff.mp parsed
  refine ⟨start, proto, rest, _, finished, ?_⟩
  generalize (if (startsWithSlashes rest && !proto.any hostlessProtocol) = true then rest.drop 2
    else rest) = behind at taken
  split_ifs at taken with enters
  · obtain ⟨protocol, slashes⟩ := authority_keeps taken
    refine ⟨protocol, slashes, fun none noSlashes => ?_⟩
    simp [none, noSlashes] at enters
  obtain ⟨rfl, -⟩ := Prod.mk.inj (some.inj taken)
  refine ⟨rfl, rfl, fun none noSlashes => ?_⟩
  rw [none, noSlashes]
  rfl

theorem ends_of_parse : Ends u := by
  obtain ⟨start, proto, rest, rest', finished, -⟩ := exists_finish_of_parse parsed
  exact ends_finish finished

theorem href_of_parse : ∃ href, u.format = some href ∧ u.href = some href := by
  obtain ⟨start, proto, rest, rest', finished, -⟩ := exists_finish_of_parse parsed
  obtain ⟨href, written, rfl⟩ := withHref_eq_some finished
  exact ⟨href, written, rfl⟩

theorem onlyPath_of_parse (noScheme : u.protocol = none) (noAuthority : u.slashes = false)
    (pathname : isSet u.pathname = true) : OnlyPath u := by
  obtain ⟨start, proto, rest, rest', finished, protocol, slashes, plain⟩ :=
    exists_finish_of_parse parsed
  have none : proto = none := by
    rw [(finish_keeps finished).1, protocol, map_eq_none_iff] at noScheme
    exact noScheme
  have noSlashes : startsWithSlashes rest = false := by
    rw [(finish_keeps finished).2.1, slashes, none, any_none, Bool.not_false, Bool.and_true]
      at noAuthority
    exact noAuthority
  obtain rfl := plain none noSlashes
  obtain ⟨href, -, rfl⟩ := withHref_eq_some finished
  exact ⟨rfl, rfl, rfl, rfl, rfl, pathname⟩

end

theorem OnlyPath.format_ne_nil (only : OnlyPath u) (ends : Ends u) : u.format ≠ some [] := by
  rw [format_of_path only.protocol only.slashes only.auth only.host only.hostname,
    escapePathname_of_free ends.pathname.1 ends.pathname.2]
  intro empty
  have none := (append_eq_nil_iff.mp (append_eq_nil_iff.mp (some.inj empty)).1).1
  have set_ := only.pathname
  simp [isSet, none] at set_

theorem ends_merged (ends : Ends base) (endsRelative : Ends relative) :
    Ends (merged base relative) := by
  have free {c : UInt16} (other : c ≠ slash) (inBase : c ∉ orEmpty base.pathname)
      (inReference : c ∉ orEmpty relative.pathname) : c ∉ targetOf base relative := by
    intro mem
    rcases DotSegments.mem_target mem with here | here | here
    · exact other here
    · exact inBase here
    · exact inReference here
  exact ⟨⟨free (by decide) ends.pathname.1 endsRelative.pathname.1,
    free (by decide) ends.pathname.2 endsRelative.pathname.2⟩, endsRelative.search,
      endsRelative.searchHash, endsRelative.hash, endsRelative.query⟩

/-! ## References to a path -/

theorem head_targetOf (absolute : (orEmpty base.pathname).head? = some slash)
    (properBase : NoEmptySegments (orEmpty base.pathname))
    (proper : NoEmptySegments (orEmpty relative.pathname)) :
    (targetOf base relative).head? = some slash := by
  obtain ⟨init, last, -, -, plain, same⟩ :=
    exists_mergedParts base.slashes absolute properBase proper
  rw [targetOf, same, DotSegments.removeDotSegments_write (by decide) plain]
  exact DotSegments.head_write (DotSegments.kept_ne_nil init last)

theorem resolveObject_eq (slashed : base.protocol.any slashedProtocol = true)
    (absolute : (orEmpty base.pathname).head? = some slash) (only : OnlyPath relative)
    (href : relative.href ≠ some []) (properBase : NoEmptySegments (orEmpty base.pathname))
    (proper : NoEmptySegments (orEmpty relative.pathname)) :
    resolveObject base relative = (merged base relative).withHref := by
  have noSlashes : ¬(relative.slashes && !isSet relative.protocol) = true := by simp [only.slashes]
  have noScheme : ¬(isSet relative.protocol && relative.protocol ≠ base.protocol) = true := by
    simp [only.protocol]
  rw [resolveObject, if_neg href, if_neg noSlashes, if_neg noScheme]
  exact mergePaths_eq slashed absolute only properBase proper

/-- **Resolving a reference to a path** against a URL of the web is what RFC 3986 makes of the two
paths, with the search and the hash of the reference, behind what the base has before its path. -/
theorem resolve_merges {source reference : JSString}
    (parsedBase : parse engine source false true = some base)
    (parsed : parse engine reference false true = some relative)
    (web : base.protocol = some (js "http:") ∨ base.protocol = some (js "https:"))
    (absolute : (orEmpty base.pathname).head? = some slash)
    (noScheme : relative.protocol = none) (noAuthority : relative.slashes = false)
    (pathname : isSet relative.pathname = true)
    (properBase : NoEmptySegments (orEmpty base.pathname))
    (proper : NoEmptySegments (orEmpty relative.pathname)) :
    ∃ result text, resolveObject base relative = some result ∧
      result.pathname = some (targetOf base relative) ∧
      result.search = relative.search ∧ result.hash = relative.hash ∧
      base.href = some (text ++ orEmpty base.pathname ++ orEmpty base.search ++ orEmpty base.hash) ∧
      resolve engine source reference = some
        (text ++ targetOf base relative ++ orEmpty relative.search ++ orEmpty relative.hash) := by
  have slashed : base.protocol.any slashedProtocol = true := by
    rcases web with http | https
    · rw [http]
      decide
    rw [https]
    decide
  have only := onlyPath_of_parse parsed noScheme noAuthority pathname
  have endsBase := ends_of_parse parsedBase
  have ends := ends_of_parse parsed
  obtain ⟨href, written, stored⟩ := href_of_parse parsedBase
  obtain ⟨href', written', stored'⟩ := href_of_parse parsed
  have some_ : relative.href ≠ some [] := by
    rw [stored', ← written']
    exact only.format_ne_nil ends
  have object := resolveObject_eq slashed absolute only some_ properBase proper
  -- the front of the base is that of the result
  rw [endsBase.format absolute] at written
  obtain ⟨text, before, rfl⟩ := map_eq_some_iff.mp written
  have result : (merged base relative).format = some
      (text ++ targetOf base relative ++ orEmpty relative.search ++ orEmpty relative.hash) := by
    rw [(ends_merged endsBase ends).format (head_targetOf absolute properBase proper)]
    exact congrArg (Option.map _) before
  rw [withHref, result, map_some] at object
  refine ⟨_, text, object, rfl, rfl, rfl, stored, ?_⟩
  rw [resolve, parsedBase, bind_some, parsed, bind_some, object, bind_some]
  exact result

/-- A reference to a sibling of the parent -/
theorem resolve_merges_parent : ∃ text, resolve asciiEngine (js "http://h/a/b") (js "../c?q") =
    some (text ++ js "/c" ++ js "?q" ++ []) := by
  let base : Url :=
    { protocol := some (js "http:"), slashes := true, host := some (js "h")
      hostname := some (js "h"), pathname := some (js "/a/b"), path := some (js "/a/b")
      href := some (js "http://h/a/b") }
  let relative : Url :=
    { search := some (js "?q"), query := some (.text (js "q")), pathname := some (js "../c")
      path := some (js "../c?q"), href := some (js "../c?q") }
  have parsedBase : parse asciiEngine (js "http://h/a/b") false true = some base := by
    decide +kernel
  have parsed : parse asciiEngine (js "../c?q") false true = some relative := by decide +kernel
  obtain ⟨result, text, -, -, -, -, -, written⟩ :=
    resolve_merges parsedBase parsed (.inl rfl) rfl rfl rfl rfl (by decide) (by decide)
  have path : targetOf base relative = js "/c" := by decide +kernel
  rw [path] at written
  exact ⟨text, written⟩

end IoJs.Url
