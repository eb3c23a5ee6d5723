import IoJs.Path.Posix
import IoJs.Path.Split
import Mathlib.Data.List.DropRight

/-!
# The parts of a path of POSIX

`dirname`, `basename`, `extname` and `parse` give parts of a path, which are those of one regular
expression. Slashes at the end of the path do not count. The root is the slash at the start; a path
of slashes alone has nothing else.
-/

namespace IoJs.Path

open IoJs.Stream IoJs.RegExp IoJs.Library.Backtracking List Option

/-- `[root, dir, basename, ext]` -/
structure SplitPath extends Parts where
  root : JSString

/-- What `parse` returns -/
structure ParsedPath where
  root : JSString
  dir : JSString
  base : JSString
  ext : JSString
  name : JSString
  deriving DecidableEq

/-- What `parse` makes of the parts -/
def SplitPath.parsed (allParts : SplitPath) : ParsedPath :=
  { root := allParts.root
    dir := allParts.root ++ allParts.dir.dropLast
    base := allParts.base
    ext := allParts.ext
    name := allParts.base.take (allParts.base.length - allParts.ext.length) }

/-- What `dirname` makes of the parts -/
def SplitPath.dirname (result : SplitPath) : JSString :=
  if result.root = [] ∧ result.dir = [] then dot else result.root ++ result.dir.dropLast

/-- What `basename` makes of the parts; it takes an extension off. -/
def SplitPath.basename (result : SplitPath) (ext : Option JSString) : JSString :=
  let f := result.base
  let ext := ext.getD []
  if ext ≠ [] ∧ f.drop (f.length - ext.length) = ext then f.take (f.length - ext.length) else f

namespace Posix

/-- Is a code unit a slash? -/
def isSlash (c : UInt16) : Bool := c == slash

/-- `splitPathRe.exec`; its first group is `(\/?|)`. -/
def splitPathRe (filename : JSString) : Option SplitPath :=
  (Regex.alt (.opt (.one isSlash)) .empty).exec (fun rest =>
    (splitParts isSlash rest).map fun parts => { parts with root := consumed filename rest })
      filename

/-- `posixSplitPath`; the pattern matches everything (`exists_splitPathRe`). -/
def posixSplitPath (filename : JSString) : SplitPath :=
  (splitPathRe filename).getD { root := [], dir := [], base := [], ext := [] }

/-- `posix.dirname` -/
def dirname (path : JSString) : JSString := (posixSplitPath path).dirname

/-- `posix.basename` -/
def basename (path : JSString) (ext : Option JSString) : JSString :=
  (posixSplitPath path).basename ext

/-- `posix.extname` -/
def extname (path : JSString) : JSString := (posixSplitPath path).ext

/-- `posix.parse` -/
def parse (pathString : JSString) : ParsedPath := (posixSplitPath pathString).parsed

example : parse (js "/home/.rc.d/a.b.c//") =
    ⟨js "/", js "/home/.rc.d", js "a.b.c", js ".c", js "a.b"⟩ := by decide

variable {path tail base : JSString} {parts : Parts} {front : JSString}

/-! ## The split -/

/-- The root of a path -/
def rootOf (path : JSString) : JSString := if isAbsolute path then [slash] else []

theorem isSlash_iff {c : UInt16} : isSlash c = true ↔ c = slash := beq_iff_eq

theorem exists_splitPathRe (path : JSString) : ∃ tail parts, path = rootOf path ++ tail ∧
    splitPathRe path = some { parts with root := rootOf path } ∧ Cut isSlash tail parts := by
  cases path with
  | nil =>
    obtain ⟨parts, found, cut⟩ := @exists_cut isSlash rfl []
    refine ⟨[], parts, rfl, ?_, cut⟩
    simp only [splitPathRe, Regex.opt, Regex.exec, found, map_some, none_or, some_or]
    rfl
  | cons c path =>
    by_cases first : c = slash
    · subst first
      obtain ⟨parts, found, cut⟩ := @exists_cut isSlash rfl path
      refine ⟨path, parts, rfl, ?_, cut⟩
      simp only [splitPathRe, Regex.opt, Regex.exec, if_pos (isSlash_iff.mpr rfl), found,
        map_some, some_or]
      rw [← singleton_append, consumed_append]
      rfl
    obtain ⟨parts, found, cut⟩ := @exists_cut isSlash rfl (c :: path)
    have relative : isAbsolute (c :: path) = false := by
      rw [isAbsolute, List.head?_cons]
      simpa using first
    have noRoot : rootOf (c :: path) = [] := if_neg (Bool.eq_false_iff.mp relative)
    refine ⟨c :: path, parts, by rw [noRoot]; rfl, ?_, cut⟩
    have nothing : consumed (c :: path) (c :: path) = [] := consumed_append [] (c :: path)
    simp only [splitPathRe, Regex.opt, Regex.exec, if_neg (mt isSlash_iff.mp first), found,
      map_some, none_or, some_or, noRoot, nothing]

theorem exists_posixSplitPath (path : JSString) :
    ∃ tail, path = rootOf path ++ tail ∧ (posixSplitPath path).root = rootOf path ∧
      Cut isSlash tail (posixSplitPath path).toParts := by
  obtain ⟨tail, parts, whole, found, cut⟩ := exists_splitPathRe path
  rw [posixSplitPath, found]
  exact ⟨tail, whole, rfl, cut⟩

/-! ## Slashes at the end -/

/-- A path without slashes at its end -/
def strip (path : JSString) : JSString := path.rdropWhile isSlash

theorem rdropWhile_append {trail : JSString} (l : JSString) (all : ∀ c ∈ trail, isSlash c = true) :
    (l ++ trail).rdropWhile isSlash = l.rdropWhile isSlash := by
  rw [List.rdropWhile, reverse_append, dropWhile_append_of_pos fun c mem =>
    all c (mem_reverse.mp mem)]
  rfl

theorem rdropWhile_append_free (l : JSString) (some_ : base ≠ [])
    (free : ∀ c ∈ base, isSlash c = false) : (l ++ base).rdropWhile isSlash = l ++ base := by
  rw [rdropWhile_eq_self_iff]
  intro filled
  rw [getLast_append_of_ne_nil filled some_, free _ (getLast_mem some_)]
  exact Bool.false_ne_true

/-- What is behind the last slash -/
def behindSlash (path : JSString) : JSString := path.rtakeWhile fun c => !isSlash c

theorem behindSlash_append (bound : front = [] ∨ front.getLast? = some slash)
    (free : ∀ c ∈ base, isSlash c = false) : behindSlash (front ++ base) = base := by
  have all : ∀ c ∈ base.reverse, (!isSlash c) = true := fun c mem => by
    rw [free c (mem_reverse.mp mem)]
    rfl
  rw [behindSlash, List.rtakeWhile, reverse_append, takeWhile_append_of_pos all]
  rcases bound with rfl | last
  · rw [reverse_nil, takeWhile_nil, append_nil, reverse_reverse]
  obtain ⟨front, rfl⟩ := List.getLast?_eq_some_iff.mp last
  have stops : ¬(!isSlash slash) = true := by decide
  have first : (front ++ [slash]).reverse = slash :: front.reverse := reverse_concat ..
  rw [first, takeWhile_cons_of_neg (p := (!isSlash ·)) stops, append_nil, reverse_reverse]

/-! ## What the parts are -/

theorem strip_eq (some_ : strip path ≠ []) : (posixSplitPath path).base ≠ [] ∧ strip path =
    (posixSplitPath path).root ++ (posixSplitPath path).dir ++ (posixSplitPath path).base := by
  obtain ⟨tail, whole, root, cut⟩ := exists_posixSplitPath path
  obtain ⟨trail, split, all⟩ := cut.whole
  have filled : (posixSplitPath path).base ≠ [] := by
    intro empty
    apply some_
    rw [cut.empty empty, empty, append_nil, nil_append] at split
    rw [strip, rdropWhile_eq_nil_iff, whole, split, forall_mem_append]
    refine ⟨?_, all⟩
    rw [rootOf]
    split_ifs
    · exact forall_mem_singleton.mpr rfl
    · exact forall_mem_nil _
  refine ⟨filled, ?_⟩
  have stripped := rdropWhile_append_free
    ((posixSplitPath path).root ++ (posixSplitPath path).dir) filled cut.free
  rw [← stripped, ← rdropWhile_append _ all, strip, root]
  conv_lhs => rw [whole, split]
  simp only [append_assoc]

theorem parts_of_strip_eq_nil (none : strip path = []) : (posixSplitPath path).base = [] ∧
    (posixSplitPath path).root ++ (posixSplitPath path).dir = path.take 1 := by
  obtain ⟨tail, whole, root, cut⟩ := exists_posixSplitPath path
  obtain ⟨trail, split, all⟩ := cut.whole
  have slashes : ∀ c ∈ path, isSlash c = true := rdropWhile_eq_nil_iff.mp none
  have noBase : (posixSplitPath path).base = [] := by
    by_contra filled
    obtain ⟨c, base, eq⟩ := exists_cons_of_ne_nil filled
    have free := cut.free c (eq ▸ mem_cons_self)
    have mem : c ∈ path := by
      rw [whole, split, eq]
      simp
    rw [slashes c mem] at free
    cases free
  refine ⟨noBase, ?_⟩
  rw [cut.empty noBase, append_nil, root, rootOf]
  cases path with
  | nil => rfl
  | cons c path =>
    have first : c = slash := isSlash_iff.mp (slashes c mem_cons_self)
    rw [first]
    rfl

theorem bound_front (path : JSString) :
    (posixSplitPath path).root ++ (posixSplitPath path).dir = [] ∨
      ((posixSplitPath path).root ++ (posixSplitPath path).dir).getLast? = some slash := by
  obtain ⟨tail, whole, root, cut⟩ := exists_posixSplitPath path
  rcases cut.bound with empty | ⟨c, last, sep⟩
  · rw [empty, append_nil, root, rootOf]
    split_ifs
    · exact .inr rfl
    · exact .inl rfl
  obtain rfl := isSlash_iff.mp sep
  right
  rw [List.getLast?_append, last, some_or]

/-! ## Joining the parts -/

theorem normalizeArray_stay {p : JSString} (stays : p = [] ∨ p = dot) (parts : List JSString)
    (above : Bool) : normalizeArray (p :: parts) above = normalizeArray parts above := by
  rw [normalizeArray, foldl_cons, normalizePart, if_pos stays]
  rfl

theorem trailingSlash_append (front : JSString) (some_ : base ≠ []) :
    trailingSlash (front ++ base) = trailingSlash base := by
  rw [trailingSlash, List.getLast?_append_of_ne_nil _ some_]
  rfl

theorem normalize_dot_slash (some_ : base ≠ []) (free : ∀ c ∈ base, isSlash c = false) :
    normalize (dot ++ slash :: base) = normalize base := by
  have relative : isAbsolute base = false := by
    obtain ⟨c, rest, rfl⟩ := exists_cons_of_ne_nil some_
    have other := free c mem_cons_self
    rw [isAbsolute, List.head?_cons]
    simpa [isSlash] using other
  have relative' : isAbsolute (dot ++ slash :: base) = false := rfl
  have last : trailingSlash (dot ++ slash :: base) = trailingSlash base :=
    trailingSlash_append (dot ++ [slash]) some_
  have split : (dot ++ slash :: base).splitOn slash = dot :: base.splitOn slash :=
    splitOn_append_cons_self dot base
  rw [normalize, relative', last, split, normalizeArray_stay (.inr rfl), normalize, relative]

theorem normalize_slash_slash (some_ : base ≠ []) :
    normalize (slash :: slash :: base) = normalize (slash :: base) := by
  have last : trailingSlash (slash :: slash :: base) = trailingSlash (slash :: base) := by
    rw [show slash :: slash :: base = [slash, slash] ++ base from rfl, trailingSlash_append _ some_,
      show slash :: base = [slash] ++ base from rfl, trailingSlash_append _ some_]
  have split : (slash :: slash :: base).splitOn slash = [] :: (slash :: base).splitOn slash :=
    splitOn_append_cons_self [] (slash :: base)
  rfl

theorem join_pair (some_ : front ≠ []) (filled : base ≠ []) :
    join [front, base] = normalize (front ++ slash :: base) := by
  rw [join, foldl_cons, foldl_cons, foldl_nil]
  rw [joinSegment.eq_def [], if_pos some_, if_pos rfl, nil_append, joinSegment,
    if_pos filled, if_neg some_]

theorem basename_none (path : JSString) : basename path none = (posixSplitPath path).base := by
  rw [basename, SplitPath.basename]
  exact if_neg fun both => both.1 rfl

theorem dirname_filled {d : JSString} (eq : (posixSplitPath path).dir = d ++ [slash]) :
    (posixSplitPath path).root ++ d ≠ [] := by
  intro empty
  obtain ⟨tail, start, root, cut⟩ := exists_posixSplitPath path
  obtain ⟨trail, split, -⟩ := cut.whole
  obtain ⟨noRoot, rfl⟩ := append_eq_nil_iff.mp empty
  rw [root] at noRoot
  have absolute : isAbsolute path = true := by
    rw [start, noRoot, split, eq]
    rfl
  rw [rootOf, if_pos absolute] at noRoot
  cases noRoot

theorem join_dirname_basename (some_ : strip path ≠ []) :
    join [dirname path, basename path none] = normalize (strip path) := by
  obtain ⟨filled, whole⟩ := strip_eq some_
  obtain ⟨tail, start, root, cut⟩ := exists_posixSplitPath path
  rw [basename_none, whole, dirname, SplitPath.dirname]
  rcases cut.bound with empty | ⟨c, last, sep⟩
  · rw [empty, append_nil, dropLast_nil, append_nil, root, rootOf]
    cases isAbsolute path with
    | true =>
      rw [if_pos rfl, if_neg fun none => cons_ne_nil _ _ none.1, join_pair (cons_ne_nil _ _) filled]
      exact normalize_slash_slash filled
    | false =>
      rw [if_neg Bool.false_ne_true, if_pos ⟨rfl, rfl⟩, join_pair (by decide) filled,
        normalize_dot_slash filled cut.free]
      rfl
  obtain rfl := isSlash_iff.mp sep
  obtain ⟨d, eq⟩ := List.getLast?_eq_some_iff.mp last
  have deeper : ¬((posixSplitPath path).root = [] ∧ (posixSplitPath path).dir = []) := by
    rintro ⟨-, none⟩
    rw [none] at last
    cases last
  rw [if_neg deeper, eq, dropLast_concat, join_pair (dirname_filled eq) filled]
  simp only [append_assoc, singleton_append]

/-! ## The last component -/

theorem name_append_ext (path : JSString) :
    (parse path).name ++ (parse path).ext = (parse path).base := by
  obtain ⟨tail, start, root, cut⟩ := exists_posixSplitPath path
  obtain ⟨name, eq⟩ := cut.suffix
  change (posixSplitPath path).base.take _ ++ (posixSplitPath path).ext = (posixSplitPath path).base
  rw [← eq, length_append, Nat.add_sub_cancel, take_left]

/-- **The parts of a path**: the last component is what is behind the last slash, the root and the
directory are what is before it, and the extension is the end of the component, from its last dot
on. Slashes at the end of the path do not count, unless there is nothing else. -/
theorem split_exact (path : JSString) : (posixSplitPath path).base = behindSlash (strip path) ∧
    (parse path).name ++ (posixSplitPath path).ext = (posixSplitPath path).base ∧
    ((posixSplitPath path).ext = [] ∨
      ∃ rest, (posixSplitPath path).ext = period :: rest ∧ period ∉ rest) ∧
    ((∃ c ∈ path, c ≠ slash) →
      (posixSplitPath path).root ++ (posixSplitPath path).dir ++ (posixSplitPath path).base =
          strip path ∧
        join [dirname path, basename path none] = normalize (strip path)) ∧
    ((∀ c ∈ path, c = slash) →
      (posixSplitPath path).root ++ (posixSplitPath path).dir = path.take 1) := by
  obtain ⟨tail, start, root, cut⟩ := exists_posixSplitPath path
  have stripped : strip path = [] ↔ ∀ c ∈ path, c = slash := by
    rw [strip, rdropWhile_eq_nil_iff]
    simp only [isSlash_iff]
  refine ⟨?_, name_append_ext path, cut.dotted, ?_, fun slashes => ?_⟩
  · by_cases some_ : strip path = []
    · rw [(parts_of_strip_eq_nil some_).1, some_]
      rfl
    · rw [(strip_eq some_).2, behindSlash_append (bound_front path) cut.free]
  · rintro ⟨c, mem, other⟩
    have some_ : strip path ≠ [] := fun none => other (stripped.mp none c mem)
    exact ⟨(strip_eq some_).2.symm, join_dirname_basename some_⟩
  · exact (parts_of_strip_eq_nil (stripped.mpr slashes)).2

end Posix

end IoJs.Path
