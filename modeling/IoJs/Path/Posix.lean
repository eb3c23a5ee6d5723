import IoJs.Path.Components

/-!
# Normal paths of POSIX

The functions of `path.posix` for arguments that are strings. `normalize` writes the place that a
path leads to, with a slash before it where the path is absolute, and one behind it where the path
has one (`assemble`). What it has written leads to the same place, so nothing is left to be done
(`normalize_assemble`); and since a walk may go on from there, a joined path may be normalized on
the way (`normalize_joinSegment`).
-/

namespace IoJs.Path

open IoJs.Stream IoJs.RegExp IoJs.Library List

namespace Posix

def slash : UInt16 := unit '/'

/-- `posix.isAbsolute`: `path.charAt(0) === '/'` -/
def isAbsolute (path : JSString) : Bool := path.head? == some slash

/-- `path.substr(-1) === '/'` -/
def trailingSlash (path : JSString) : Bool := path.getLast? == some slash

/-- The end of `normalize`, behind `normalizeArray` -/
def assemble (isAbsolute trailingSlash : Bool) (parts : List JSString) : JSString :=
  (if isAbsolute then [slash] else []) ++ writeTail slash isAbsolute trailingSlash parts

/-- `posix.normalize` -/
def normalize (path : JSString) : JSString :=
  assemble (isAbsolute path) (trailingSlash path)
    (normalizeArray (path.splitOn slash) !isAbsolute path)

/-- What `posix.join` does with one segment -/
def joinSegment (path segment : JSString) : JSString :=
  if segment ≠ [] then
    if path = [] then path ++ segment
    else path ++ slash :: segment
  else path

/-- `posix.join` -/
def join (segments : List JSString) : JSString := normalize (segments.foldl joinSegment [])

variable {absolute trailing : Bool} {parts : List JSString} {path : JSString}
variable {q : Position JSString}

/-! ## Reading a path -/

theorem isAbsolute_iff :
    isAbsolute path = true ↔ path ≠ [] ∧ (path.splitOn slash).head? = some [] := by
  cases path with
  | nil => decide
  | cons c path =>
    obtain ⟨part, rest, split⟩ := exists_cons_of_ne_nil (splitOn_ne_nil slash path)
    rw [splitOn_cons_eq_if_modifyHead, split]
    by_cases first : c = slash
    · subst first
      simp [isAbsolute]
    · simp [isAbsolute, first]

theorem trailingSlash_iff :
    trailingSlash path = true ↔ path ≠ [] ∧ (path.splitOn slash).getLast? = some [] := by
  rw [trailingSlash, beq_iff_eq]
  constructor
  · intro last
    obtain ⟨front, rfl⟩ := List.getLast?_eq_some_iff.mp last
    rw [splitOn_append_cons_self]
    exact ⟨by simp, List.getLast?_concat ..⟩
  rintro ⟨filled, last⟩
  obtain ⟨front, split⟩ := List.getLast?_eq_some_iff.mp last
  have whole := @intercalate_splitOn _ path _ _ slash
  by_cases alone : front = []
  · rw [split, alone] at whole
    exact absurd whole.symm filled
  rw [split, intercalate_concat_nil slash alone] at whole
  rw [← whole]
  exact List.getLast?_concat ..

theorem not_mem_of_mem_splitOn {p : JSString} (mem : p ∈ path.splitOn slash) : slash ∉ p := by
  induction path generalizing p with
  | nil =>
    rw [mem_singleton.mp mem]
    exact not_mem_nil
  | cons c path ih =>
    obtain ⟨part, rest, split⟩ := exists_cons_of_ne_nil (splitOn_ne_nil slash path)
    rw [split] at ih
    rw [splitOn_cons_eq_if_modifyHead, split] at mem
    split at mem
    · rcases mem_cons.mp mem with rfl | later
      · exact not_mem_nil
      · exact ih later
    rename_i other
    rcases mem_cons.mp mem with rfl | later
    · have head := ih mem_cons_self
      rw [mem_cons, not_or]
      exact ⟨fun same => other (by rw [same]; exact beq_self_eq_true _), head⟩
    · exact ih (mem_cons_of_mem _ later)

/-- The place that a path leads to -/
def destination (above : Bool) (path : JSString) : Position JSString :=
  place above (path.splitOn slash)

theorem proper_render (above : Bool) (path : JSString) :
    ∀ p ∈ render (destination above path), p ≠ [] ∧ slash ∉ p := by
  intro p mem
  rcases mem_append.mp mem with up | name
  · rw [eq_of_mem_replicate up]
    exact ⟨by decide, by decide⟩
  obtain ⟨part, proper⟩ := mem_names_place name
  exact ⟨proper.filled, not_mem_of_mem_splitOn part⟩

theorem normalize_eq (path : JSString) :
    normalize path = assemble (isAbsolute path) (trailingSlash path)
      (render (destination (!isAbsolute path) path)) := by
  rw [normalize, normalizeArray_eq]
  rfl

/-! ## Writing a path -/

/-- The components of what `normalize` writes -/
def components (isAbsolute trailingSlash : Bool) (parts : List JSString) : List JSString :=
  (if isAbsolute then [[]] else []) ++ tailComponents isAbsolute trailingSlash parts

theorem splitOn_assemble (absolute trailing : Bool) (proper : ∀ p ∈ parts, p ≠ [] ∧ slash ∉ p) :
    (assemble absolute trailing parts).splitOn slash = components absolute trailing parts := by
  have tail := splitOn_writeTail absolute trailing proper (by decide)
  cases absolute with
  | true =>
    rw [assemble, components, ← tail]
    exact splitOn_append_cons_self [] _
  | false =>
    rw [assemble, components, ← tail]
    rfl

theorem assemble_ne_nil (proper : ∀ p ∈ parts, p ≠ [] ∧ slash ∉ p) :
    assemble absolute trailing parts ≠ [] := by
  cases absolute with
  | true => exact cons_ne_nil _ _
  | false =>
    intro empty
    obtain ⟨p, rest, split, some_⟩ := exists_head_of_relative trailing fun p mem => (proper p mem).1
    have read := splitOn_assemble false trailing proper
    rw [empty, components, split] at read
    exact some_ (List.cons.inj read).1.symm

theorem isAbsolute_assemble (proper : ∀ p ∈ parts, p ≠ [] ∧ slash ∉ p) :
    isAbsolute (assemble absolute trailing parts) = absolute := by
  cases absolute with
  | true => rfl
  | false =>
    obtain ⟨p, rest, split, some_⟩ := exists_head_of_relative trailing fun p mem => (proper p mem).1
    refine Bool.eq_false_iff.mpr fun absolute => ?_
    have read := (isAbsolute_iff.mp absolute).2
    rw [splitOn_assemble _ _ proper, components, split] at read
    exact some_ (Option.some.inj read)

theorem trailingSlash_assemble (absolute trailing : Bool)
    (proper : ∀ p ∈ parts, p ≠ [] ∧ slash ∉ p) :
    trailingSlash (assemble absolute trailing parts) = true ↔
      trailing = true ∨ (absolute = true ∧ parts = []) := by
  have proper' : ∀ p ∈ parts, p ≠ [] := fun p mem => (proper p mem).1
  have last : (components absolute trailing parts).getLast? =
      (tailComponents absolute trailing parts).getLast? :=
    List.getLast?_append_of_ne_nil _ tailComponents_ne_nil
  rw [trailingSlash_iff, splitOn_assemble _ _ proper, last, getLast_tailComponents proper',
    and_iff_right (assemble_ne_nil proper)]

theorem destination_assemble (above : Bool) (proper : ∀ p ∈ parts, p ≠ [] ∧ slash ∉ p) :
    destination above (assemble absolute trailing parts) = place above parts := by
  have lead : ∀ p ∈ (if absolute = true then [[]] else []), move p = .stay := by
    intro p mem
    split at mem
    · rw [mem_singleton.mp mem]
      rfl
    · cases mem
  rw [destination, splitOn_assemble _ _ proper, components, place_stay_append above lead,
    place_tailComponents]

theorem assemble_root (trailing' : Bool)
    (same : trailing' = true ↔ trailing = true ∨ (absolute = true ∧ parts = [])) :
    assemble absolute trailing' parts = assemble absolute trailing parts := by
  by_cases root : absolute = true ∧ parts = []
  · obtain ⟨rfl, rfl⟩ := root
    rfl
  have eq : trailing' = trailing := by
    rw [Bool.eq_iff_iff, same]
    exact or_iff_left root
  rw [eq]

section

variable (path : JSString)

theorem destination_normalize :
    destination (!isAbsolute path) (normalize path) = destination (!isAbsolute path) path := by
  rw [normalize_eq, destination_assemble _ (proper_render _ path)]
  exact place_render _ _

theorem isAbsolute_normalize : isAbsolute (normalize path) = isAbsolute path := by
  rw [normalize_eq, isAbsolute_assemble (proper_render _ path)]

theorem normalize_normalize : normalize (normalize path) = normalize path := by
  have again := normalize_eq (normalize path)
  rw [isAbsolute_normalize, destination_normalize] at again
  rw [again]
  rw [normalize_eq path]
  exact assemble_root _ (trailingSlash_assemble _ _ (proper_render _ path))

theorem trailingSlash_normalize :
    trailingSlash (normalize path) = true ↔ trailingSlash path = true ∨
    normalize path = [slash] := by
  have written := trailingSlash_assemble (isAbsolute path) (trailingSlash path)
    (proper_render (!isAbsolute path) path)
  rw [← normalize_eq] at written
  constructor
  · intro last
    rcases written.mp last with kept | ⟨absolute, root⟩
    · exact .inl kept
    refine .inr ?_
    rw [absolute] at root
    rw [normalize_eq, absolute, root]
    rfl
  rintro (kept | root)
  · exact written.mpr (.inl kept)
  rw [root]
  rfl

end

/-! ## Normal form -/

/-- A path that has nothing to be normalized -/
structure Canonical (path : JSString) : Prop where
  filled : path ≠ []
  dot : dot ∈ path.splitOn slash → path = dot ∨ path = dot ++ [slash]
  /-- an empty component is before the first slash or behind the last one -/
  empty : [] ∉ (path.splitOn slash).tail.dropLast
  dotdot : ∃ ups rest, path.splitOn slash = List.replicate ups dotdot ++ rest ∧ dotdot ∉ rest ∧
    (isAbsolute path = true → ups = 0)

theorem dotdot_tailComponents (absolute trailing : Bool) (names : ∀ name ∈ q.names, Proper name) :
    ∃ rest, tailComponents absolute trailing (render q) =
      List.replicate q.ups dotdot ++ rest ∧ dotdot ∉ rest := by
  have other : dotdot ∉ q.names := fun mem => (names dotdot mem).notDotdot rfl
  have none (empty : render q = []) : q.ups = 0 :=
    (replicate_eq_nil_iff _).mp (append_eq_nil_iff.mp empty).1
  rw [tailComponents]
  split_ifs with empty
  · exact ⟨[[]], by rw [none empty]; rfl, by decide⟩
  · exact ⟨[dot, []], by rw [none empty]; rfl, by decide⟩
  · exact ⟨[dot], by rw [none empty]; rfl, by decide⟩
  · refine ⟨q.names ++ [[]], by rw [render, append_assoc], ?_⟩
    rw [mem_append, not_or]
    exact ⟨other, by decide⟩
  · exact ⟨q.names, rfl, other⟩

theorem canonical_assemble
    (names : ∀ name ∈ q.names, Proper name) (proper : ∀ p ∈ render q, p ≠ [] ∧ slash ∉ p)
    (rooted : absolute = true → q.ups = 0) : Canonical (assemble absolute trailing (render q)) := by
  have filled : ∀ p ∈ render q, p ≠ [] := fun p mem => (proper p mem).1
  refine ⟨assemble_ne_nil proper, ?_, ?_, ?_⟩
  · intro mem
    rw [splitOn_assemble _ _ proper] at mem
    have notDot : dot ≠ [] := by decide
    have tail : dot ∈ tailComponents absolute trailing (render q) := by
      rcases mem_append.mp mem with lead | tail
      · split at lead
        · exact absurd (mem_singleton.mp lead) notDot
        · cases lead
      · exact tail
    rcases mem_tailComponents tail with none | part | ⟨-, empty, relative⟩
    · exact absurd none notDot
    · rcases mem_append.mp part with up | name
      · have other : dot ≠ dotdot := by decide
        exact absurd (eq_of_mem_replicate up) other
      · exact absurd rfl (names dot name).notDot
    rw [empty, relative]
    cases trailing with
    | true => exact .inr rfl
    | false => exact .inl rfl
  · rw [splitOn_assemble _ _ proper]
    have none := nil_notMem_dropLast_tailComponents absolute trailing
      filled
    cases absolute with
    | true => exact none
    | false =>
      rw [components, ← tail_dropLast]
      exact fun mem => none (mem_of_mem_tail mem)
  rw [splitOn_assemble _ _ proper, isAbsolute_assemble proper]
  obtain ⟨rest, split, other⟩ := dotdot_tailComponents absolute trailing names
  cases absolute with
  | true =>
    rw [rooted rfl] at split
    refine ⟨0, [] :: rest, ?_, ?_, fun _ => rfl⟩
    · rw [components, split]
      rfl
    rw [mem_cons, not_or]
    exact ⟨by decide, other⟩
  | false => exact ⟨q.ups, rest, split, other, nofun⟩

theorem canonical_normalize (path : JSString) : Canonical (normalize path) := by
  rw [normalize_eq]
  refine canonical_assemble (proper_place _ _) (proper_render _ path) fun absolute => ?_
  rw [absolute]
  exact ups_place_false _

/-! ## Joining paths -/

theorem destination_append (above : Bool) (path segment : JSString) :
    destination above (path ++ slash :: segment) =
      Position.walk above (destination above path) ((segment.splitOn slash).map move) := by
  rw [destination, splitOn_append_cons_self, place, map_append, Position.walk_append]
  rfl

theorem normalize_joinSegment (filled : path ≠ []) (segment : JSString) :
    normalize (joinSegment (normalize path) segment) = normalize (joinSegment path segment) := by
  have filled' : normalize path ≠ [] := (canonical_normalize path).filled
  rw [joinSegment, joinSegment]
  by_cases some_ : segment ≠ []
  · have absolute (first : JSString) (filled : first ≠ []) :
        isAbsolute (first ++ slash :: segment) = isAbsolute first := by
      rw [isAbsolute, List.head?_append_of_ne_nil _ filled]
      rfl
    have last (first : JSString) :
        trailingSlash (first ++ slash :: segment) = trailingSlash segment := by
      rw [trailingSlash, List.getLast?_append_of_ne_nil _ (cons_ne_nil _ _),
        List.getLast?_cons_of_ne_nil some_]
      rfl
    rw [if_pos some_, if_neg filled', if_pos some_, if_neg filled,
      normalize_eq (normalize path ++ slash :: segment), normalize_eq (path ++ slash :: segment),
      absolute _ filled', absolute _ filled, last, last, isAbsolute_normalize, destination_append,
      destination_append, destination_normalize]
  rw [if_neg some_, if_neg some_]
  exact normalize_normalize path

theorem joinSegment_nil (segment : JSString) : joinSegment [] segment = segment := by
  cases segment with
  | nil => rfl
  | cons => rfl

theorem joinSegment_ne_nil (filled : path ≠ []) (segment : JSString) :
    joinSegment path segment ≠ [] := by
  rw [joinSegment]
  split_ifs
  · exact append_ne_nil_of_left_ne_nil filled _
  · exact filled

/-- **The algebra of paths**: a path is normal after `normalize`, which keeps what it is relative to
and its trailing slash, and adds none but the root; and joining is associative. -/
theorem path_algebra :
    (∀ path, normalize (normalize path) = normalize path ∧ Canonical (normalize path) ∧
      isAbsolute (normalize path) = isAbsolute path ∧ (trailingSlash (normalize path) = true ↔
          trailingSlash path = true ∨ normalize path = [slash])) ∧
      ∀ a b c, a ≠ [] ∨ b ≠ [] → join [join [a, b], c] = join [a, b, c] := by
  refine ⟨fun path => ⟨normalize_normalize path, canonical_normalize path,
    isAbsolute_normalize path, trailingSlash_normalize path⟩, ?_⟩
  intro a b c some_
  have filled : joinSegment a b ≠ [] := by
    by_cases none : a = []
    · rw [none, joinSegment_nil]
      exact some_.resolve_left (not_not_intro none)
    · exact joinSegment_ne_nil none b
  simp only [join, foldl_cons, foldl_nil, joinSegment_nil]
  exact normalize_joinSegment filled c

end Posix

end IoJs.Path
