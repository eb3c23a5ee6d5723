import IoJs.Path.Parts
import IoJs.Path.Win32

/-!
# `path.format`

`parse` takes the separator off the directory, but not off a directory that is a root. `format` puts
one there: on POSIX always, and so one too many behind a root (`Posix.format_parse_iff`); on Windows
only if there is no backslash, and it is always a backslash (`Win32.format_parse_iff`).
-/

namespace IoJs.Path

open IoJs.Stream IoJs.RegExp List Option

/-- A path does not end with a separator. -/
def Open (isSep : UInt16 → Bool) (tail : JSString) : Prop := ∀ c ∈ tail.getLast?, isSep c = false

namespace Posix

/-- `posix.format`, of an object as `parse` returns it -/
def format (pathObject : ParsedPath) : JSString :=
  let dir := if pathObject.dir ≠ [] then pathObject.dir ++ [slash] else []
  dir ++ pathObject.base

/-- A path behind its root -/
def tailOf (path : JSString) : JSString := path.drop (rootOf path).length

end Posix

namespace Win32

/-- A path of Windows, split as `splitTailRe` does behind the root -/
def win32SplitPath (filename : JSString) : SplitPath :=
  let result := splitDevice filename
  let device := result.device ++ result.slash
  { (splitParts isSlash result.tail).getD { dir := [], base := [], ext := [] } with root := device }

/-- `win32.parse` -/
def parse (pathString : JSString) : ParsedPath := (win32SplitPath pathString).parsed

/-- `win32.format`, of an object as `parse` returns it -/
def format (pathObject : ParsedPath) : JSString :=
  let dir := pathObject.dir
  if dir.drop (dir.length - 1) = [backslash] then dir ++ pathObject.base
  else if dir ≠ [] then dir ++ backslash :: pathObject.base
  else pathObject.base

/-- The root of a path: its device, and the separator behind it -/
def rootOf (path : JSString) : JSString := (splitDevice path).device ++ (splitDevice path).slash

/-- A path behind its root -/
def tailOf (path : JSString) : JSString := (splitDevice path).tail

end Win32

theorem Cut.whole_of_open {isSep : UInt16 → Bool} {tail : JSString} {parts : Parts}
    (cut : Cut isSep tail parts) (open_ : Open isSep tail) : tail = parts.dir ++ parts.base := by
  obtain ⟨trail, whole, all⟩ := cut.whole
  rcases eq_nil_or_concat trail with rfl | ⟨front, c, rfl⟩
  · rw [whole, append_nil]
  rw [concat_eq_append] at whole all
  have last : tail.getLast? = some c := by rw [whole, ← append_assoc, List.getLast?_concat]
  have sep := open_ c last
  rw [all c mem_concat_self] at sep
  cases sep

/-! ## POSIX -/

namespace Posix

variable {path : JSString}

theorem tailOf_eq {tail : JSString} (start : path = rootOf path ++ tail) : tailOf path = tail := by
  rw [tailOf]
  generalize rootOf path = root at start
  rw [start, drop_left]

/-- **A path is restored** unless it is one component in the root, or the root. -/
theorem format_parse_iff (open_ : Open isSlash (tailOf path)) :
    format (parse path) = path ↔ ¬(isAbsolute path = true ∧ slash ∉ tailOf path) := by
  obtain ⟨tail, start, root, cut⟩ := exists_posixSplitPath path
  rw [tailOf_eq start] at open_ ⊢
  have whole := cut.whole_of_open open_
  have parsed : parse path = (posixSplitPath path).parsed := rfl
  rw [parsed, format, SplitPath.parsed]
  rcases cut.bound with empty | ⟨c, last, sep⟩
  · have alone : slash ∉ tail := by
      rw [whole, empty, nil_append]
      exact fun mem => absurd (cut.free slash mem) (by decide)
    rw [empty, nil_append] at whole
    simp only [root, empty, dropLast_nil, append_nil, ← whole, alone, not_false_eq_true,
      and_true, Bool.not_eq_true]
    cases absolute : isAbsolute path with
    | true =>
      have isRoot : rootOf path = [slash] := if_pos absolute
      rw [isRoot] at start ⊢
      rw [if_pos (cons_ne_nil _ _), iff_false_right (by decide)]
      intro same
      have length := congrArg List.length same
      rw [start] at length
      simp at length
    | false =>
      have noRoot : rootOf path = [] := if_neg (Bool.eq_false_iff.mp absolute)
      rw [noRoot] at start ⊢
      rw [if_neg (not_not.mpr rfl), iff_true_right rfl]
      exact start.symm
  obtain rfl := isSlash_iff.mp sep
  obtain ⟨d, eq⟩ := List.getLast?_eq_some_iff.mp last
  have mem : slash ∈ tail := by
    rw [whole, eq]
    simp
  rw [iff_true_right fun both => both.2 mem, eq, dropLast_concat, if_pos (dirname_filled eq)]
  conv_rhs => rw [start, whole, eq, ← root]
  simp only [append_assoc]

end Posix

/-! ## Windows -/

namespace Win32

variable {path : JSString} {device rest base root : JSString} {c : UInt16}

theorem splitSlash_append_eq (device rest : JSString) :
    (splitSlash device rest).slash ++ (splitSlash device rest).tail = rest := by
  cases rest with
  | nil => rfl
  | cons =>
    rw [splitSlash]
    split_ifs
    · rfl
    · rfl

theorem splitDrive_append (read : splitDrive path = some (device, rest)) :
    device ++ rest = path := by
  match path with
  | [] => cases read
  | [c] => cases read
  | c :: c' :: path =>
    rw [splitDrive] at read
    split_ifs at read
    obtain ⟨rfl, rfl⟩ := Prod.mk.inj (some.inj read)
    rfl

theorem splitUNC_append (read : splitUNC path = some (device, rest)) : device ++ rest = path := by
  match path with
  | [] => cases read
  | [c] => cases read
  | c :: c' :: path =>
    rw [splitUNC] at read
    split_ifs at read
    obtain ⟨rfl, rfl⟩ := Prod.mk.inj (some.inj read)
    simp only [cons_append, append_assoc, takeWhile_append_dropWhile]

theorem exists_splitSlash (path : JSString) :
    ∃ device rest, device ++ rest = path ∧ splitDevice path = splitSlash device rest := by
  rw [splitDevice]
  cases read : (splitDrive path).or (splitUNC path) with
  | none => exact ⟨[], path, rfl, rfl⟩
  | some found =>
    refine ⟨found.1, found.2, ?_, rfl⟩
    rcases or_eq_some_iff.mp read with drive | ⟨-, unc⟩
    · exact splitDrive_append drive
    · exact splitUNC_append unc

theorem rootOf_append_tailOf (path : JSString) : rootOf path ++ tailOf path = path := by
  obtain ⟨device, rest, whole, split⟩ := exists_splitSlash path
  rw [rootOf, tailOf, split, splitSlash_device, append_assoc, splitSlash_append_eq, whole]

theorem headed_tailOf (none : rootOf path = []) : Headed (tailOf path) := by
  obtain ⟨device, rest, whole, split⟩ := exists_splitSlash path
  have noSlash := (append_eq_nil_iff.mp none).2
  rw [tailOf, split]
  rw [split] at noSlash
  cases rest with
  | nil => rfl
  | cons =>
    rw [splitSlash] at noSlash ⊢
    split_ifs at noSlash with sep
    rw [if_neg sep]
    exact Bool.eq_false_iff.mpr sep

theorem last_separator_unique {front front' base' : JSString} {c' : UInt16}
    (same : front ++ c :: base = front' ++ c' :: base') (sep : isSlash c = true)
    (sep' : isSlash c' = true) (free : Free base) (free' : Free base') :
    front = front' ∧ c = c' ∧ base = base' := by
  have none {l : JSString} {d : UInt16} (free : Free l) (isSep : isSlash d = true) : d ∉ l := by
    intro mem
    rw [free d mem] at isSep
    cases isSep
  rcases append_eq_append_iff.mp same with ⟨more, rfl, rest⟩ | ⟨more, rfl, rest⟩
  · cases more with
    | nil =>
      obtain ⟨rfl, rfl⟩ := List.cons.inj rest
      exact ⟨(append_nil front).symm, rfl, rfl⟩
    | cons =>
      obtain ⟨-, rfl⟩ := List.cons.inj rest
      exact absurd (by simp) (none free sep')
  cases more with
  | nil =>
    obtain ⟨rfl, rfl⟩ := List.cons.inj rest
    exact ⟨append_nil front', rfl, rfl⟩
  | cons =>
    obtain ⟨-, rfl⟩ := List.cons.inj rest
    exact absurd (by simp) (none free' sep)

theorem drop_length_sub_one_iff {dir : JSString} :
    dir.drop (dir.length - 1) = [backslash] ↔ dir.getLast? = some backslash := by
  rcases eq_nil_or_concat dir with rfl | ⟨front, c, rfl⟩
  · exact iff_of_false (cons_ne_nil _ _).symm (by decide)
  rw [concat_eq_append, length_append, length_singleton, Nat.add_sub_cancel,
    drop_left, List.getLast?_concat, List.cons.injEq, Option.some.injEq,
    and_iff_left rfl]

theorem exists_win32SplitPath (path : JSString) :
    ∃ parts, win32SplitPath path = { parts with root := rootOf path } ∧
      Cut isSlash (tailOf path) parts := by
  obtain ⟨parts, found, cut⟩ := @exists_cut isSlash rfl (splitDevice path).tail
  refine ⟨parts, ?_, cut⟩
  rw [win32SplitPath, found]
  rfl

/-- The last separator of a tail is a backslash, and the only one there; or there is none, and the
root needs none. -/
def Joins (root tail : JSString) : Prop :=
  Free tail ∧ (root = [] ∨ root.getLast? = some backslash) ∨
    ∃ front base, tail = front ++ backslash :: base ∧ Free base ∧
      (root ++ front).getLast? ≠ some backslash

/-- A directory and a component, with what `format` puts between them -/
def joined (dir base : JSString) : JSString :=
  if dir.getLast? = some backslash then dir ++ base
  else if dir ≠ [] then dir ++ backslash :: base
  else base

theorem joined_root_iff (free : Free base) : joined root base = root ++ base ↔ Joins root base := by
  have alone : ¬∃ front base', base = front ++ backslash :: base' ∧ Free base' ∧
      (root ++ front).getLast? ≠ some backslash := by
    rintro ⟨front, base', rfl, -⟩
    have other := free backslash (by simp)
    cases other
  rw [Joins, or_iff_left alone, and_iff_right free, joined]
  split_ifs with last some_
  · exact iff_of_true rfl (.inr last)
  · refine iff_of_false (fun same => ?_) (not_or.mpr ⟨some_, last⟩)
    have length := congrArg List.length same
    simp at length
  obtain rfl := not_not.mp some_
  exact iff_of_true rfl (.inl rfl)

theorem joined_dir_iff {d : JSString} (sep : isSlash c = true)
    (free : Free base) (some_ : root ++ d ≠ []) :
    joined (root ++ d) base = root ++ (d ++ c :: base) ↔ Joins root (d ++ c :: base) := by
  have notFree : ¬Free (d ++ c :: base) := by
    intro all
    rw [all c (by simp)] at sep
    cases sep
  rw [Joins, or_iff_right fun left => notFree left.1, joined]
  split_ifs with last
  · refine iff_of_false (fun same => ?_) ?_
    · have length := congrArg List.length same
      simp at length
    rintro ⟨front, base', same, free', other⟩
    obtain ⟨rfl, -, -⟩ := last_separator_unique same sep rfl free free'
    exact other last
  rw [append_assoc, append_cancel_left_eq, append_cancel_left_eq, List.cons.injEq, and_iff_left rfl]
  constructor
  · rintro rfl
    exact ⟨d, base, rfl, free, last⟩
  rintro ⟨front, base', same, free', -⟩
  exact (last_separator_unique same sep rfl free free').2.1.symm

/-- **A path is restored** exactly when the separator that is put behind the directory is the one
that was there. -/
theorem format_parse_iff (open_ : Open isSlash (tailOf path)) :
    format (parse path) = path ↔ Joins (rootOf path) (tailOf path) := by
  obtain ⟨⟨dir, base, ext⟩, split, cut⟩ := exists_win32SplitPath path
  have whole : tailOf path = dir ++ base := cut.whole_of_open open_
  have restored := rootOf_append_tailOf path
  have parsed : parse path = ⟨rootOf path, rootOf path ++ dir.dropLast, base, ext, _⟩ :=
    congrArg SplitPath.parsed split
  have formatted : format (parse path) = joined (rootOf path ++ dir.dropLast) base := by
    simp only [parsed, format, drop_length_sub_one_iff]
    rfl
  have same : joined (rootOf path ++ dir.dropLast) base = path ↔
      joined (rootOf path ++ dir.dropLast) base = rootOf path ++ (dir ++ base) := by
    rw [← whole, restored]
  rw [formatted, same, whole]
  rcases cut.bound with empty | ⟨c, last, sep⟩
  · obtain rfl : dir = [] := empty
    rw [dropLast_nil, append_nil]
    exact joined_root_iff cut.free
  obtain ⟨d, rfl⟩ : ∃ d, dir = d ++ [c] := List.getLast?_eq_some_iff.mp last
  rw [dropLast_concat, append_assoc, singleton_append]
  refine joined_dir_iff sep cut.free fun empty => ?_
  obtain ⟨noRoot, rfl⟩ := append_eq_nil_iff.mp empty
  have headed := headed_tailOf noRoot
  rw [whole] at headed
  have other : isSlash c = false := headed
  rw [sep] at other
  cases other

end Win32

/-- **When a path is restored** that does not end with a separator, behind its root: on POSIX unless
it is one component in the root, or the root; on Windows if the separator before its last component
is a backslash, and the only one there. -/
theorem restored_iff (path : JSString) : (Open Posix.isSlash (Posix.tailOf path) →
    (Posix.format (Posix.parse path) = path ↔
      ¬(Posix.isAbsolute path = true ∧ Posix.slash ∉ Posix.tailOf path))) ∧
    (Open Win32.isSlash (Win32.tailOf path) → (Win32.format (Win32.parse path) = path ↔
        Win32.Joins (Win32.rootOf path) (Win32.tailOf path))) :=
  ⟨Posix.format_parse_iff, Win32.format_parse_iff⟩

/-- A path that is restored on POSIX, and one on Windows -/
theorem restored_home : Posix.format (Posix.parse (js "/home/a.b.c")) = js "/home/a.b.c" ∧
    Win32.format (Win32.parse (js "c:\\a\\b.c")) = js "c:\\a\\b.c" := by
  obtain ⟨posix, -⟩ := restored_iff (js "/home/a.b.c")
  obtain ⟨-, win32⟩ := restored_iff (js "c:\\a\\b.c")
  have tail : Win32.tailOf (js "c:\\a\\b.c") = js "a\\b.c" := by decide
  have letter : Posix.isSlash (unit 'c') = false ∧ Win32.isSlash (unit 'c') = false := by decide
  refine ⟨(posix ?_).mpr (by decide), (win32 ?_).mpr (.inr ⟨js "a", js "b.c", tail, ?_, ?_⟩)⟩
  · rintro c ⟨⟩
    exact letter.1
  · rw [tail]
    rintro c ⟨⟩
    exact letter.2
  · have free : (js "b.c").all (Win32.isSlash · = false) = true := by decide
    intro c mem
    exact of_decide_eq_true (List.all_eq_true.mp free c mem)
  · decide

/-- **A file in the root, and a slash on Windows**, are not restored. -/
theorem not_restored : Posix.format (Posix.parse (js "/a")) ≠ js "/a" ∧
      Win32.format (Win32.parse (js "a/b")) ≠ js "a/b" := by decide

end IoJs.Path
