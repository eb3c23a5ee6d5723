import IoJs.Path.Win32

/-!
# Normal paths of Windows

What `normalize` writes is read again as it was written: its device, the slash behind it, and its
tail. So it is normal, and is relative to what the path is relative to.
-/

namespace IoJs.Path

open IoJs.Stream IoJs.RegExp IoJs.Library List Option

namespace Win32

variable {absolute trailing : Bool} {parts : List JSString} {path p : JSString} {d : Device}

/-! ## The tail -/

theorem proper_render (above : Bool) (l : JSString) :
    ∀ p ∈ render (place above (splitRuns l)), p ≠ [] ∧ Free p := by
  intro p mem
  rcases mem_append.mp mem with up | name
  · rw [eq_of_mem_replicate up]
    refine ⟨by decide, ?_⟩
    intro c mem
    have both : c = unit '.' := by simpa [dotdot, js] using mem
    rw [both]
    decide
  obtain ⟨part, proper⟩ := mem_names_place name
  exact ⟨proper.filled, free_of_mem_splitRuns part⟩

theorem headed_writeTail (proper : ∀ p ∈ parts, p ≠ [] ∧ Free p) :
    Headed (writeTail backslash absolute trailing parts) := by
  have filled : ∀ p ∈ parts, p ≠ [] := fun p mem => (proper p mem).1
  rw [writeTail_eq filled]
  exact headed_intercalate (free_tailComponents _ _ proper)
    (nil_notMem_dropLast_tailComponents _ _ filled)

theorem trailingSlash_of_free (front : JSString) (filled : p ≠ []) (free : Free p) :
    trailingSlash (front ++ p) = false := by
  have last : (front ++ p).getLast? = some (p.getLast filled) := by
    rw [List.getLast?_append_of_ne_nil _ filled, List.getLast?_eq_some_getLast filled]
  rw [trailingSlash, last]
  exact free _ (getLast_mem filled)

theorem trailingSlash_writeTail (absolute trailing : Bool) (proper : ∀ p ∈ parts, p ≠ [] ∧ Free p) :
    trailingSlash (writeTail backslash absolute trailing parts) = true ↔
      trailing = true ∧ ¬(absolute = true ∧ parts = []) := by
  by_cases empty : parts = []
  · subst empty
    cases absolute with
    | true => simp [writeTail, trailingSlash]
    | false =>
      cases trailing with
      | true => decide
      | false => decide
  have filled : ∀ p ∈ parts, p ≠ [] := fun p mem => (proper p mem).1
  have body : [backslash].intercalate parts ≠ [] := intercalate_ne_nil backslash empty filled
  simp only [writeTail, body, ne_eq, not_false_eq_true, false_and, if_false, true_and, empty,
    and_false, and_true]
  cases trailing with
  | true =>
    rw [if_pos rfl, trailingSlash, List.getLast?_concat]
    decide
  | false =>
    rw [if_neg Bool.false_ne_true, iff_false_right Bool.false_ne_true]
    rcases eq_nil_or_concat parts with none | ⟨front, last, split⟩
    · exact absurd none empty
    rw [concat_eq_append] at split
    subst split
    obtain ⟨written, eq⟩ := exists_intercalate_concat backslash front last
    obtain ⟨some_, free⟩ := proper last mem_concat_self
    rw [eq, trailingSlash_of_free written some_ free]
    exact Bool.false_ne_true

theorem writeTail_again (absolute trailing : Bool) (proper : ∀ p ∈ parts, p ≠ [] ∧ Free p) :
    writeTail backslash absolute
        (trailingSlash (writeTail backslash absolute trailing parts)) parts =
      writeTail backslash absolute trailing parts := by
  have same := trailingSlash_writeTail absolute trailing proper
  by_cases root : absolute = true ∧ parts = []
  · obtain ⟨rfl, rfl⟩ := root
    rfl
  rw [and_iff_left root, ← Bool.eq_iff_iff] at same
  rw [same]

theorem splitDrive_intercalate {first : JSString} {rest : List JSString} (free : Free first)
    (filled : first ≠ []) :
    (splitDrive ([backslash].intercalate (first :: rest))).isSome = (splitDrive first).isSome := by
  by_cases alone : rest = []
  · rw [alone, intercalate_singleton]
  rw [intercalate_cons backslash first alone]
  obtain ⟨c, first, rfl⟩ := exists_cons_of_ne_nil filled
  cases first with
  | nil =>
    have other : ¬(isLetter c = true ∧ backslash = colon) := nofun
    change (if isLetter c = true ∧ backslash = colon then _ else Option.none).isSome = _
    rw [if_neg other]
    rfl
  | cons =>
    rw [cons_append, cons_append, splitDrive, splitDrive]
    split_ifs
    · rfl
    · rfl

/-! ## The exception -/

/-- Nothing is left before a component that looks like a drive. -/
def Exposed (path : JSString) : Prop :=
  (splitDevice path).device = [] ∧ isAbsolute path = false ∧
    ∃ name, (splitDrive name).isSome = true ∧ Position.StandsFirst name ((splitRuns path).map move)

/-- Where the tail of a path leads -/
def destination (path : JSString) : Position JSString :=
  place (!isAbsolute path) (splitRuns (splitDevice path).tail)

/-- The tail that `normalize` writes -/
def normalTail (path : JSString) : JSString :=
  writeTail backslash (isAbsolute path) (trailingSlash (splitDevice path).tail)
    (render (destination path))

theorem normalize_eq (has : HasDevice path d) :
    normalize path = d.text ++
      ((if isAbsolute path then [backslash] else []) ++ normalTail path) := by
  rw [normalize, normalizeArray_eq]
  simp only [has.normal, append_assoc]
  rfl

theorem HasDevice.tail_eq (has : HasDevice path .none) (relative : isAbsolute path = false) :
    (splitDevice path).tail = path := by
  have whole := has.plain rfl
  have noSlash : (splitDevice path).slash = [] := by
    rw [isAbsolute, Bool.or_eq_false_iff, Bool.not_eq_false', List.isEmpty_iff] at relative
    exact relative.1
  rw [whole] at noSlash ⊢
  cases path with
  | nil => rfl
  | cons =>
    rw [splitSlash] at noSlash ⊢
    split at noSlash
    · cases noSlash
    rename_i other
    rw [if_neg other]

theorem exists_first_component (q : Position JSString) (trailing : Bool) :
    ∃ first rest, tailComponents false trailing (render q) = first :: rest ∧
      ∀ name, (splitDrive name).isSome = true →
        (first = name ↔ q.ups = 0 ∧ q.names.head? = some name) := by
  have split (first : JSString) (parts : List JSString) :
      ∃ rest, tailComponents false trailing (first :: parts) = first :: rest := by
    cases trailing with
    | true => exact ⟨parts ++ [[]], rfl⟩
    | false => exact ⟨parts, rfl⟩
  obtain ⟨ups, names⟩ := q
  cases ups with
  | succ ups =>
    obtain ⟨rest, eq⟩ := split dotdot (render ⟨ups, names⟩)
    refine ⟨dotdot, rest, eq, fun name drive => ?_⟩
    refine ⟨?_, fun low => absurd low.1 (Nat.succ_ne_zero ups)⟩
    rintro rfl
    exact absurd drive (by decide)
  | zero =>
    cases names with
    | nil =>
      have read : ∃ rest, tailComponents false trailing (render ⟨0, []⟩) = dot :: rest := by
        cases trailing with
        | true => exact ⟨[[]], rfl⟩
        | false => exact ⟨[], rfl⟩
      obtain ⟨rest, eq⟩ := read
      refine ⟨dot, rest, eq, fun name drive => ⟨?_, fun none => by cases none.2⟩⟩
      rintro rfl
      exact absurd drive (by decide)
    | cons first names =>
      obtain ⟨rest, eq⟩ := split first names
      refine ⟨first, rest, eq, fun name _ => ?_⟩
      rw [List.head?_cons, Option.some.injEq, and_iff_right rfl]

theorem splitDrive_normalTail (has : HasDevice path .none) (relative : isAbsolute path = false) :
    (splitDrive (normalTail path)).isSome = true ↔ Exposed path := by
  have noDevice := has.empty.mpr rfl
  have leads : destination path = place true (splitRuns path) := by
    rw [destination, relative, has.tail_eq relative]
    rfl
  have proper : ∀ p ∈ render (destination path), p ≠ [] ∧ Free p := by
    rw [leads]
    exact proper_render true path
  obtain ⟨first, rest, split, stands⟩ :=
    exists_first_component (destination path) (trailingSlash (splitDevice path).tail)
  have free : Free first := by
    refine free_tailComponents false (trailingSlash (splitDevice path).tail) proper first ?_
    rw [split]
    exact mem_cons_self
  have filled : first ≠ [] := by
    obtain ⟨first', rest', split', filled⟩ := exists_head_of_relative
      (trailingSlash (splitDevice path).tail) fun p mem => (proper p mem).1
    rw [split] at split'
    rw [(List.cons.inj split').1]
    exact filled
  have written : normalTail path = [backslash].intercalate (first :: rest) := by
    rw [normalTail, relative, writeTail_eq fun p mem => (proper p mem).1, split]
  rw [written, splitDrive_intercalate free filled]
  have names (name : JSString) : ((place true (splitRuns path)).ups = 0 ∧
        (place true (splitRuns path)).names.head? = some name) ↔
          Position.StandsFirst name ((splitRuns path).map move) := Position.head_names_walk_iff
  constructor
  · intro drive
    have low := (stands first drive).mp rfl
    rw [leads] at low
    exact ⟨noDevice, relative, first, drive, (names first).mp low⟩
  rintro ⟨-, -, name, drive, found⟩
  have low := (names name).mpr found
  rw [← leads] at low
  rw [(stands name drive).mpr low]
  exact drive

theorem splitUNC_of_not_headed {l : JSString} (headed : Headed l) : splitUNC l = none := by
  cases l with
  | nil => rfl
  | cons c l =>
    cases l with
    | nil => rfl
    | cons c' l => exact splitUNC_of_headed l (.inl headed)

theorem splitSlash_append (device : JSString) (absolute : Bool) {tail : JSString}
    (headed : Headed tail) :
    splitSlash device ((if absolute then [backslash] else []) ++ tail) =
      ⟨device, if absolute then [backslash] else [], tail⟩ := by
  cases absolute with
  | true => rfl
  | false =>
    cases tail with
    | nil => rfl
    | cons => exact if_neg (Bool.eq_false_iff.mp headed)

theorem splitDevice_normalize (has : HasDevice path d) (fine : ¬Exposed path) :
    splitDevice (normalize path) =
      ⟨d.text, if isAbsolute path then [backslash] else [], normalTail path⟩ := by
  have headed : Headed (normalTail path) := headed_writeTail (proper_render _ _)
  rw [normalize_eq has, has.valid.splitDevice_append, splitSlash_append d.text _ headed]
  · rintro rfl
    cases absolute : isAbsolute path with
    | true =>
      refine ⟨splitDrive_of_headed_slash rfl _, ?_⟩
      change splitUNC (backslash :: normalTail path) = none
      cases eq : normalTail path with
      | nil => rfl
      | cons c tail =>
        rw [eq] at headed
        exact splitUNC_of_headed tail (.inr headed)
    | false =>
      refine ⟨?_, splitUNC_of_not_headed headed⟩
      have drive := mt (splitDrive_normalTail has absolute).mp fine
      rwa [Bool.not_eq_true, isSome_eq_false_iff, isNone_iff_eq_none] at drive
  intro isUNC
  have absolute : isAbsolute path = true := by rw [isAbsolute, has.unc, isUNC, Bool.or_true]
  rw [absolute]
  rfl

theorem splitDrive_ne_nil {device rest : JSString} (read : splitDrive path = some (device, rest)) :
    device ≠ [] := by
  rintro rfl
  cases path with
  | nil => cases read
  | cons c path =>
    cases path with
    | nil => cases read
    | cons =>
      rw [splitDrive] at read
      split_ifs at read
      cases read

theorem Device.eq_none_of_text (empty : d.text = []) : d = .none := by
  cases d with
  | none => rfl
  | drive => cases empty
  | unc => cases empty

theorem destination_normalTail (path : JSString) :
    place (!isAbsolute path) (splitRuns (normalTail path)) = destination path := by
  have proper := proper_render (!isAbsolute path) (splitDevice path).tail
  rw [← destination] at proper
  rw [normalTail, splitRuns_writeTail proper, place_tailComponents]
  exact place_render _ _

/-- **When `normalize` is safe**: what it writes is normal, has the same device, and is relative if
the path is, unless the path is exposed. -/
theorem normalize_iff (path : JSString) : (normalize (normalize path) = normalize path ∧
    normalizeDevice (splitDevice (normalize path)).device =
      normalizeDevice (splitDevice path).device ∧
    isAbsolute (normalize path) = isAbsolute path) ↔ ¬Exposed path := by
  obtain ⟨d, has⟩ := exists_hasDevice path
  constructor
  · rintro ⟨-, device, -⟩ ⟨noDevice, relative, exposed⟩
    obtain rfl := has.empty.mp noDevice
    have drive := (splitDrive_normalTail has relative).mpr ⟨noDevice, relative, exposed⟩
    obtain ⟨⟨letter, rest⟩, read⟩ := isSome_iff_exists.mp drive
    have whole : normalize path = normalTail path := by
      rw [normalize_eq has, relative]
      rfl
    have found : (splitDevice (normalize path)).device = letter := by
      rw [whole, splitDevice, read]
      exact splitSlash_device letter rest
    obtain ⟨d', has'⟩ := exists_hasDevice (normalize path)
    rw [has'.normal, has.normal] at device
    rw [has'.empty.mpr (Device.eq_none_of_text device)] at found
    exact splitDrive_ne_nil read found.symm
  intro fine
  have read := splitDevice_normalize has fine
  have text := has.valid.normalizeDevice_text
  have absolute : isAbsolute (normalize path) = isAbsolute path := by
    have unc := has.unc
    rw [isAbsolute, read, text.2, ← unc]
    cases absolute : isAbsolute path with
    | true => rfl
    | false =>
      rw [isAbsolute, Bool.or_eq_false_iff] at absolute
      exact absolute.2
  refine ⟨?_, ?_, absolute⟩
  · have again := writeTail_again (isAbsolute path) (trailingSlash (splitDevice path).tail)
      (proper_render (!isAbsolute path) (splitDevice path).tail)
    rw [normalize, absolute, read, normalizeArray_eq, destination_normalTail]
    simp only [text.1, append_assoc]
    rw [normalize_eq has]
    exact congrArg (fun tail => d.text ++ ((if isAbsolute path then [backslash] else []) ++ tail))
      again
  · rw [read, text.1, has.normal]

/-- A relative path becomes one on another drive. -/
theorem normalize_exposed : ¬∀ path, normalize (normalize path) = normalize path ∧
    normalizeDevice (splitDevice (normalize path)).device =
      normalizeDevice (splitDevice path).device ∧
    isAbsolute (normalize path) = isAbsolute path := by
  intro claim
  have device := (claim (js "./c:/x")).2.1
  exact absurd device (by decide)

end Win32

end IoJs.Path
