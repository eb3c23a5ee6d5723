import IoJs.Path.Exposed
import IoJs.Path.Relative

/-!
# Resolving paths of Windows

`resolve` takes its arguments from right to left until it knows the device and the path is absolute;
if the arguments do not say it, the current directory does, or the one of the drive.
-/

namespace IoJs.Path

open IoJs.Stream IoJs.RegExp IoJs.Library List
open IoJs.Library.Position (start go walk)

namespace Win32

/-- `toLowerCase` of strings: a slash stays what it is and separates the contexts in which Unicode
looks at a letter, and the number of code units of a letter does not depend on the others. -/
structure LowerCase where
  toLowerCase : JSString → JSString
  nil : toLowerCase [] = []
  filled : ∀ {s}, s ≠ [] → toLowerCase s ≠ []
  length_append : ∀ s t,
    (toLowerCase (s ++ t)).length = (toLowerCase s).length + (toLowerCase t).length
  split : ∀ {c}, isSlash c = true → ∀ s t,
    toLowerCase (s ++ c :: t) = toLowerCase s ++ c :: toLowerCase t
  plain : ∀ {c}, isSlash c = true → ∀ {s}, c ∉ s → c ∉ toLowerCase s

/-- The current directories -/
structure Directories (table : LowerCase) where
  /-- `process.cwd()` -/
  cwd : JSString
  /-- `process.env['=' + device]` -/
  env : JSString → Option JSString
  cwd_device : (splitDevice cwd).device ≠ []
  cwd_absolute : isAbsolute cwd = true
  /-- What passes for a directory of the drive begins with a drive. -/
  env_drive : ∀ {device path}, env device = some path →
    table.toLowerCase (path.take 3) = table.toLowerCase device ++ [backslash] →
      (splitDrive path).isSome = true

variable {table : LowerCase} {c : UInt16} {p path : JSString}

/-- The drive-local directory, or the root of the drive -/
def Directories.ofDrive (dirs : Directories table) (device : JSString) : JSString :=
  match dirs.env device with
  | none => device ++ [backslash]
  | some path =>
    if path = [] ∨ table.toLowerCase (path.take 3) ≠ table.toLowerCase device ++ [backslash] then
      device ++ [backslash]
    else path

/-- The variables of `resolve` -/
structure Resolving where
  device : JSString
  tail : JSString
  absolute : Bool
  isUnc : Bool

namespace Resolving

/-- `resolvedDevice && resolvedAbsolute` -/
def done (s : Resolving) : Bool := !s.device.isEmpty && s.absolute

/-- What one path does -/
def add (table : LowerCase) (path : JSString) (s : Resolving) : Resolving :=
  -- skip empty entries
  if path = [] then s
  else
    let device := (splitDevice path).device
    -- this path points to another device, so it is not applicable
    if device ≠ [] ∧ s.device ≠ [] ∧ table.toLowerCase device ≠ table.toLowerCase s.device then
      { s with isUnc := Win32.isUnc device }
    else
      { device := if s.device = [] then device else s.device
        tail := if s.absolute then s.tail else (splitDevice path).tail ++ backslash :: s.tail
        absolute := s.absolute || isAbsolute path
        isUnc := Win32.isUnc device }

end Resolving

/-- The loop of `resolve`, with the arguments that are left, the last one first -/
def resolveLoop (dirs : Directories table) : List JSString → Resolving → Resolving
  | [], s => s.add table (if s.device = [] then dirs.cwd else dirs.ofDrive s.device)
  | path :: rest, s =>
    -- Where a path is skipped the loop was not done before, and is not now.
    if (s.add table path).done then s.add table path else resolveLoop dirs rest (s.add table path)

/-- The end of `resolve`, behind the loop -/
def Resolving.result (s : Resolving) : JSString :=
  let device := if s.isUnc then normalizeUNCRoot s.device else s.device
  let tail := [backslash].intercalate (normalizeArray (splitRuns s.tail) !s.absolute)
  let result := device ++ (if s.absolute then [backslash] else []) ++ tail
  if result = [] then dot else result

/-- The variables at the beginning -/
def Resolving.start : Resolving := ⟨[], [], false, false⟩

/-- `win32.resolve` -/
def resolve (dirs : Directories table) (paths : List JSString) : JSString :=
  (resolveLoop dirs paths.reverse .start).result

/-- `win32.relative` -/
def relative (dirs : Directories table) (origin target : JSString) : JSString :=
  let origin := resolve dirs [origin]
  let target := resolve dirs [target]
  let toParts := trim (target.splitOn backslash)
  -- windows is not case sensitive
  let lowerFromParts := trim ((table.toLowerCase origin).splitOn backslash)
  let lowerToParts := trim ((table.toLowerCase target).splitOn backslash)
  let same := samePartsLength lowerFromParts lowerToParts
  if same = 0 then target
  else
    [backslash].intercalate
      (List.replicate (lowerFromParts.length - same) dotdot ++ toParts.drop same)

/-! ## Components of a tail -/

/-- What is between the slashes -/
def parts (l : JSString) : List JSString := (splitRuns l).filter fun p => p ≠ []

/-- Where the components lead to -/
def names (l : JSString) : List JSString := (place false (parts l)).names

theorem place_filter (above : Bool) (l : List JSString) :
    place above (l.filter fun p => p ≠ []) = place above l := by
  induction l using List.reverseRecOn with
  | nil => rfl
  | append_singleton l p ih =>
    rw [filter_append, place_concat, ← ih]
    by_cases empty : p = []
    · subst empty
      exact congrArg (place above) (append_nil _)
    have kept : [p].filter (fun p => p ≠ []) = [p] := filter_cons_of_pos (decide_eq_true empty)
    rw [kept, place_concat]

theorem place_splitRuns (above : Bool) (l : JSString) :
    place above (splitRuns l) = place above (parts l) := (place_filter above _).symm

theorem parts_cons_slash (slash : isSlash c = true) (l : JSString) : parts (c :: l) = parts l := by
  rw [parts, splitRuns, if_pos slash]
  split_ifs
  · rfl
  · rfl

/-- What is before the first slash -/
def lead (p : JSString) : List JSString := [p].filter fun p => p ≠ []

theorem parts_of_free (free : Free p) : parts p = lead p := by
  rw [parts, splitRuns_of_free free, lead]

theorem splitRuns_append_slashes (p : JSString) {c' : UInt16} (slash : isSlash c = true)
    (slash' : isSlash c' = true) (l : JSString) :
    splitRuns (p ++ c :: c' :: l) = splitRuns (p ++ c' :: l) := by
  induction p with
  | nil =>
    rw [nil_append, nil_append, splitRuns, if_pos slash]
    exact if_pos slash'
  | cons d p ih =>
    have more : ∀ c, ((p ++ c :: l).head?.map isSlash).getD false =
        (p.head?.map isSlash).getD (isSlash c) := by simp
    have more' : ((p ++ c :: c' :: l).head?.map isSlash).getD false =
        (p.head?.map isSlash).getD (isSlash c) := by simp
    rw [cons_append, cons_append, splitRuns, splitRuns, ih, more, more', slash, slash']

theorem parts_lead (free : Free p) (slash : isSlash c = true)
    (l : JSString) : parts (p ++ c :: l) = lead p ++ parts l := by
  induction l generalizing c with
  | nil =>
    rw [parts, splitRuns_append (l := []) free slash rfl, lead, parts, ← filter_append]
    rfl
  | cons c' l ih =>
    by_cases slash' : isSlash c' = true
    · rw [parts, splitRuns_append_slashes p slash slash', ← parts, ih slash',
        parts_cons_slash slash']
    have headed : Headed (c' :: l) := Bool.eq_false_iff.mpr slash'
    simp [parts, splitRuns_append free slash headed, lead, ← filter_append]

theorem parts_append (slash : isSlash c = true) (s l : JSString) :
    parts (s ++ c :: l) = parts s ++ parts l := by
  have from_free : ∀ s p : JSString, Free p →
      parts (p ++ s ++ c :: l) = parts (p ++ s) ++ parts l := by
    intro s
    induction s with
    | nil =>
      intro p free
      simp [parts_lead free slash, parts_of_free free]
    | cons d s ih =>
      intro p free
      by_cases slash' : isSlash d = true
      · simpa [parts_lead free slash'] using congrArg (lead p ++ ·) (ih [] (by rintro c ⟨⟩))
      have free' : Free (p ++ [d]) := by
        intro e mem
        rcases mem_append.mp mem with old | new
        · exact free e old
        rw [mem_singleton.mp new]
        exact Bool.eq_false_iff.mpr slash'
      have whole := ih (p ++ [d]) free'
      rwa [append_assoc p, singleton_append] at whole
  exact from_free s [] (by rintro c ⟨⟩)

theorem parts_concat_slash (slash : isSlash c = true) (s : JSString) :
    parts (s ++ [c]) = parts s := by
  rw [parts_append slash]
  exact append_nil _

/-! ## The loop -/

namespace Resolving

variable {path : JSString} {s : Resolving}

/-- What the tail is does not matter to the loop. -/
def append (s : Resolving) (l : JSString) : Resolving := { s with tail := s.tail ++ l }

theorem add_nil (s : Resolving) : s.add table [] = s := if_pos rfl

/-- Whether a path points to another device -/
def Other (table : LowerCase) (path : JSString) (s : Resolving) : Prop :=
  (splitDevice path).device ≠ [] ∧ s.device ≠ [] ∧
    table.toLowerCase (splitDevice path).device ≠ table.toLowerCase s.device

theorem add_other (filled : path ≠ []) (other : Other table path s) :
    s.add table path = { s with isUnc := Win32.isUnc (splitDevice path).device } :=
  (if_neg filled).trans (if_pos other)

theorem add_same (filled : path ≠ []) (same : ¬Other table path s) : s.add table path =
    { device := if s.device = [] then (splitDevice path).device else s.device
      tail := if s.absolute then s.tail else (splitDevice path).tail ++ backslash :: s.tail
      absolute := s.absolute || isAbsolute path
      isUnc := Win32.isUnc (splitDevice path).device } :=
  (if_neg filled).trans (if_neg same)

theorem add_append (path : JSString) (s : Resolving) (l : JSString) :
    (s.append l).add table path = (s.add table path).append l := by
  by_cases empty : path = []
  · subst empty
    rw [add_nil, add_nil]
  by_cases other : Other table path s
  · have other' : Other table path (s.append l) := other
    rw [add_other empty other, add_other empty other', append, append]
  have same' : ¬Other table path (s.append l) := other
  rw [add_same empty other, add_same empty same', append, append]
  by_cases absolute : s.absolute = true
  · simp [absolute]
  · simp [absolute]

/-- What is known before the loop is done -/
structure Pending (s : Resolving) : Prop where
  device : s.device = [] ∨ ∃ c, isLetter c = true ∧ s.device = [c, colon]
  relative : s.device ≠ [] → s.absolute = false
  closed : s.tail = [] ∧ s.absolute = false ∨ ∃ l, s.tail = l ++ [backslash]

/-- What is known when it is -/
structure Finished (s : Resolving) : Prop where
  device : s.device ≠ []
  absolute : s.absolute = true
  isUnc : s.isUnc = Win32.isUnc s.device
  read : ∃ path, (splitDevice path).device = s.device
  closed : ∃ l, s.tail = l ++ [backslash]

theorem Pending.not_done (pending : Pending s) : s.done = false := by
  rw [done, Bool.and_eq_false_iff, Bool.not_eq_false', List.isEmpty_iff]
  by_cases none_ : s.device = []
  · exact .inl none_
  · exact .inr (pending.relative none_)

theorem Finished.done (finished : Finished s) : s.done = true := by
  simpa [Resolving.done] using ⟨finished.device, finished.absolute⟩

theorem pending_start : Pending start := ⟨.inl rfl, fun _ => rfl, .inl ⟨rfl, rfl⟩⟩

end Resolving

theorem resolveLoop_append (dirs : Directories table) (paths : List JSString) (s : Resolving)
    (l : JSString) : resolveLoop dirs paths (s.append l) = (resolveLoop dirs paths s).append l := by
  induction paths generalizing s with
  | nil => exact Resolving.add_append _ s l
  | cons path paths ih =>
    rw [resolveLoop, resolveLoop, Resolving.add_append]
    have same : ((s.add table path).append l).done = (s.add table path).done := rfl
    rw [same]
    split_ifs
    · rfl
    · exact ih _

/-! ## Drives and other devices -/

theorem not_isSlash_colon : isSlash colon = false := by decide

theorem exists_drive (some_ : (splitDevice path).device ≠ [])
    (drive : isUnc (splitDevice path).device = false) :
    ∃ c, isLetter c = true ∧ (splitDevice path).device = [c, colon] := by
  obtain ⟨d, has⟩ := exists_hasDevice path
  have normal := has.normal
  rw [normalizeDevice, if_neg (Bool.eq_false_iff.mp drive)] at normal
  have unc := has.unc
  rw [drive] at unc
  have valid := has.valid
  cases valid with
  | none => exact absurd (has.empty.mpr rfl) some_
  | @drive c letter => exact ⟨c, letter, normal⟩
  | unc => cases unc

theorem exists_slash_of_isUnc (unc : isUnc (splitDevice path).device = true) :
    ∃ c device, (splitDevice path).device = c :: device ∧ isSlash c = true := by
  have read : ∀ device rest, splitUNC path = some (device, rest) →
      ∃ c device', device = c :: device' ∧ isSlash c = true := by
    intro device rest found
    cases path with
    | nil => cases found
    | cons c path =>
      cases path with
      | nil => cases found
      | cons => grind [splitUNC]
  cases drive : splitDrive path with
  | some found =>
    obtain ⟨device, rest⟩ := found
    cases path with
    | nil => cases drive
    | cons c path =>
      cases path with
      | nil => cases drive
      | cons =>
        have eq := drive
        rw [splitDrive] at drive
        split_ifs at drive with letter
        obtain ⟨rfl, -⟩ := Prod.mk.inj (Option.some.inj drive)
        rw [splitDevice, eq, letter.2] at unc
        have device := splitSlash_device [c, colon] rest
        change isUnc (splitSlash [c, colon] rest).device = true at unc
        rw [device] at unc
        cases unc
  | none =>
    cases found : splitUNC path with
    | none =>
      rw [splitDevice, drive, found] at unc
      change isUnc (splitSlash [] path).device = true at unc
      rw [splitSlash_device] at unc
      cases unc
    | some both =>
      obtain ⟨device, rest⟩ := both
      obtain ⟨c, device', rfl, slash⟩ := read device rest found
      refine ⟨c, device', ?_, slash⟩
      rw [splitDevice, drive, found]
      exact splitSlash_device _ rest

theorem LowerCase.isUnc_of_drive (table : LowerCase) (letter : isLetter c = true)
    (same : table.toLowerCase (splitDevice path).device = table.toLowerCase [c, colon]) :
    isUnc (splitDevice path).device = false := by
  by_contra unc
  obtain ⟨slash, device, begins, isSlash_⟩ := exists_slash_of_isUnc (Bool.of_not_eq_false unc)
  have here : slash ∈ table.toLowerCase (splitDevice path).device := by
    have split := table.split isSlash_ [] device
    rw [begins]
    rw [nil_append] at split
    simp [split]
  rw [same] at here
  refine table.plain isSlash_ (fun mem => ?_) here
  rcases mem_pair.mp mem with rfl | rfl
  · simp [not_isSlash_of_isLetter letter] at isSlash_
  · simp [not_isSlash_colon] at isSlash_

theorem exists_of_splitDrive (drive : (splitDrive path).isSome = true) :
    ∃ c rest, isLetter c = true ∧ path = c :: colon :: rest := by
  cases path with
  | nil => cases drive
  | cons c path =>
    cases path with
    | nil => cases drive
    | cons c' rest =>
      rw [splitDrive] at drive
      split_ifs at drive with found
      · exact ⟨c, rest, found.1, found.2 ▸ rfl⟩
      · cases drive

theorem backslash_ne_of_isLetter (letter : isLetter c = true) : backslash ≠ c := by
  rintro rfl
  cases letter

theorem LowerCase.root_of_checked (table : LowerCase) {device : JSString}
    (drive : (splitDrive path).isSome = true)
    (checked : table.toLowerCase (path.take 3) = table.toLowerCase device ++ [backslash]) :
    ∃ c rest, isLetter c = true ∧ path = c :: colon :: backslash :: rest ∧
      table.toLowerCase [c, colon] = table.toLowerCase device := by
  obtain ⟨c, rest, letter, rfl⟩ := exists_of_splitDrive drive
  have here : backslash ∈ (c :: colon :: rest).take 3 := by
    by_contra none_
    refine table.plain rfl none_ ?_
    rw [checked]
    simp
  have not_device : backslash ∉ [c, colon] := by
    intro mem
    rcases mem_pair.mp mem with same | same
    · exact backslash_ne_of_isLetter letter same
    · exact absurd same (by decide)
  cases rest with
  | nil => exact absurd here not_device
  | cons c' rest =>
    have third : (c :: colon :: c' :: rest).take 3 = [c, colon] ++ [c'] := rfl
    rw [third] at here checked
    obtain rfl : backslash = c' := mem_singleton.mp ((mem_append.mp here).resolve_left not_device)
    rw [table.split rfl, table.nil] at checked
    exact ⟨c, rest, letter, rfl, append_cancel_right checked⟩

theorem Directories.ofDrive_eq (dirs : Directories table) (letter : isLetter c = true) :
    ∃ c' rest, isLetter c' = true ∧ dirs.ofDrive [c, colon] = c' :: colon :: backslash :: rest ∧
      table.toLowerCase [c', colon] = table.toLowerCase [c, colon] := by
  have root : ∃ c' rest, isLetter c' = true ∧
      [c, colon] ++ [backslash] = c' :: colon :: backslash :: rest ∧
        table.toLowerCase [c', colon] = table.toLowerCase [c, colon] :=
    ⟨c, [], letter, rfl, rfl⟩
  rw [Directories.ofDrive]
  cases found : dirs.env [c, colon] with
  | none => exact root
  | some path =>
    simp only
    split_ifs with fails
    · exact root
    rw [not_or, not_not] at fails
    exact table.root_of_checked (dirs.env_drive found fails.2) fails.2

theorem splitDevice_drive (letter : isLetter c = true) (rest : JSString) :
    splitDevice (c :: colon :: rest) = splitSlash [c, colon] rest := by
  have drive : splitDrive (c :: colon :: rest) = some ([c, colon], rest) := if_pos ⟨letter, rfl⟩
  rw [splitDevice, drive]
  rfl

theorem isAbsolute_drive (letter : isLetter c = true) (rest : JSString) :
    isAbsolute (c :: colon :: rest) = (rest.head?.map isSlash).getD false := by
  rw [isAbsolute, splitDevice_drive letter, splitSlash_device]
  have drive : isUnc [c, colon] = false := rfl
  rw [drive, Bool.or_false]
  cases rest with
  | nil => rfl
  | cons c' rest =>
    rw [splitSlash]
    by_cases slash : isSlash c' = true
    · simp [slash]
    · simp [slash]

/-! ## What the loop finds -/

namespace Resolving

variable {path : JSString} {s : Resolving}

theorem closed_add (pending : Pending s) (l : JSString) :
    ∃ l', (if s.absolute then s.tail else l ++ backslash :: s.tail) = l' ++ [backslash] := by
  rcases pending.closed with ⟨empty, relative⟩ | ⟨l', eq⟩
  · simp [relative, empty]
  · grind

theorem add_pending (table : LowerCase) (pending : Pending s) (path : JSString) :
    (s.device ≠ [] → (s.add table path).device = s.device) ∧
      (Finished (s.add table path) ∨ Pending (s.add table path)) := by
  by_cases empty : path = []
  · subst empty
    simpa using ⟨fun _ => rfl, .inr pending⟩
  by_cases other : Other table path s
  · rw [add_other empty other]
    exact ⟨fun _ => rfl, .inr ⟨pending.device, pending.relative, pending.closed⟩⟩
  have closed := closed_add pending (splitDevice path).tail
  rw [add_same empty other]
  refine ⟨fun some_ => if_neg some_, ?_⟩
  rcases pending.device with none_ | ⟨c, letter, drive⟩
  · -- The device of the path is taken.
    rw [if_pos none_]
    by_cases device : (splitDevice path).device = []
    · exact .inr ⟨.inl device, fun some_ => absurd device some_, .inr closed⟩
    by_cases absolute : (s.absolute || isAbsolute path) = true
    · exact .inl ⟨device, absolute, rfl, ⟨path, rfl⟩, closed⟩
    rw [Bool.not_eq_true] at absolute
    have relative := (Bool.or_eq_false_iff.mp absolute).2
    rw [isAbsolute, Bool.or_eq_false_iff] at relative
    exact .inr ⟨.inr (exists_drive device relative.2), fun _ => absolute, .inr closed⟩
  -- The path is on the drive, or has no device.
  have some_ : s.device ≠ [] := by simp [drive]
  rw [if_neg some_]
  have not_unc : Win32.isUnc (splitDevice path).device = false := by
    by_cases device : (splitDevice path).device = []
    · rw [device]
      rfl
    refine table.isUnc_of_drive letter ?_
    by_contra differs
    exact other ⟨device, some_, drive ▸ differs⟩
  by_cases absolute : (s.absolute || isAbsolute path) = true
  · refine .inl ⟨some_, absolute, ?_, ⟨s.device, ?_⟩, closed⟩
    · rw [drive]
      exact not_unc
    rw [drive, splitDevice_drive letter]
    rfl
  exact .inr ⟨.inr ⟨c, letter, drive⟩, fun _ => Bool.eq_false_iff.mpr absolute, .inr closed⟩

theorem add_directory (pending : Pending s) (filled : path ≠ []) (same : ¬Other table path s)
    (device : s.device = [] → (splitDevice path).device ≠ []) (absolute : isAbsolute path = true) :
    Finished (s.add table path) := by
  refine (add_pending table pending path).2.resolve_right fun again => ?_
  have some_ : (s.add table path).device ≠ [] := by
    rw [add_same filled same]
    by_cases none_ : s.device = []
    · simpa [none_] using device none_
    · simp [none_]
  have relative := again.relative some_
  simp [add_same filled same, absolute, Bool.or_true] at relative

/-- The directory that the loop takes when no argument is left -/
def base (dirs : Directories table) (device : JSString) : JSString :=
  if device = [] then dirs.cwd else dirs.ofDrive device

section

variable (dirs : Directories table)

theorem cwd_ne_nil : dirs.cwd ≠ [] := by
  intro empty
  refine dirs.cwd_device ?_
  rw [empty]
  rfl

theorem base_eq (pending : Pending s) :
    base dirs s.device ≠ [] ∧ ¬Other table (base dirs s.device) s ∧
      (s.device = [] → (splitDevice (base dirs s.device)).device ≠ []) ∧
        isAbsolute (base dirs s.device) = true := by
  rcases pending.device with none_ | ⟨c, letter, drive⟩
  · rw [base, if_pos none_]
    exact ⟨cwd_ne_nil dirs, fun other => other.2.1 none_, fun _ => dirs.cwd_device,
      dirs.cwd_absolute⟩
  have some_ : s.device ≠ [] := by simp [drive]
  obtain ⟨c', rest, letter', eq, same⟩ := dirs.ofDrive_eq letter
  rw [base, if_neg some_, drive, eq]
  refine ⟨cons_ne_nil _ _, fun other => other.2.2 ?_, ?_, ?_⟩
  · rw [splitDevice_drive letter', splitSlash_device, drive]
    exact same
  · rintro ⟨⟩
  rw [isAbsolute_drive letter']
  rfl

theorem add_base (pending : Pending s) : Finished (s.add table (base dirs s.device)) := by
  obtain ⟨filled, same, device, absolute⟩ := base_eq dirs pending
  exact add_directory pending filled same device absolute

end

end Resolving

variable {s : Resolving}

theorem resolveLoop_finished (dirs : Directories table) (paths : List JSString)
    (pending : s.Pending) :
    (resolveLoop dirs paths s).Finished ∧
      (s.device ≠ [] → (resolveLoop dirs paths s).device = s.device) := by
  induction paths generalizing s with
  | nil => exact ⟨Resolving.add_base dirs pending, (Resolving.add_pending table pending _).1⟩
  | cons path paths ih =>
    obtain ⟨device, added⟩ := Resolving.add_pending table pending path
    rw [resolveLoop]
    rcases added with finished | again
    · simpa [finished.done] using ⟨finished, device⟩
    rw [if_neg (Bool.eq_false_iff.mp again.not_done)]
    obtain ⟨finished, device'⟩ := ih again
    refine ⟨finished, fun some_ => ?_⟩
    have same := device some_
    exact (device' (same ▸ some_)).trans same

/-! ## Locations -/

/-- A device, and names below it -/
@[ext] structure Location where
  device : Device
  names : List JSString
  valid : device.Valid
  some_ : device ≠ .none
  proper : ∀ name ∈ names, Proper name ∧ Free name

/-- The location is written. -/
def Location.text (l : Location) : JSString :=
  l.device.text ++ backslash :: [backslash].intercalate l.names

/-- The device, as it is written -/
def readDevice (device : JSString) : Device :=
  if device = [] then .none
  else if isUnc device then
    let root := (normalizeUNCRoot device).drop 2
    .unc (root.takeWhile fun c => c ≠ backslash) ((root.dropWhile fun c => c ≠ backslash).drop 1)
  else .drive (device.headD 0)

theorem HasDevice.eq {d : Device} (has : HasDevice path d) :
    readDevice (splitDevice path).device = d := by
  have valid := has.valid
  have normal := has.normal
  have unc := has.unc
  have empty := has.empty
  rw [normalizeDevice] at normal
  cases valid with
  | none => exact if_pos (empty.mpr rfl)
  | @drive c letter =>
    have some_ : (splitDevice path).device ≠ [] := fun none_ => by cases empty.mp none_
    have not_unc : ¬isUnc (splitDevice path).device = true := by
      rw [unc]
      exact Bool.false_ne_true
    rw [if_neg not_unc] at normal
    rw [readDevice, if_neg some_, if_neg not_unc, normal]
    rfl
  | @unc server share server_filled server_free share_filled share_free =>
    have some_ : (splitDevice path).device ≠ [] := fun none_ => by cases empty.mp none_
    have isUnc_ : isUnc (splitDevice path).device = true := unc
    rw [if_pos isUnc_] at normal
    have outside : ∀ c ∈ server, decide (c ≠ backslash) = true := by
      intro c mem
      rw [decide_eq_true_iff]
      rintro rfl
      cases server_free _ mem
    have root : (Device.unc server share).text.drop 2 = server ++ backslash :: share := by
      simp [Device.text]
    have stop : ¬decide (backslash ≠ backslash) = true := by decide
    rw [readDevice, if_neg some_, if_pos isUnc_, normal]
    simp only [root]
    rw [takeWhile_append_of_pos outside, dropWhile_append_of_pos outside,
      takeWhile_cons_of_neg (p := fun c => decide (c ≠ backslash)) stop,
      dropWhile_cons_of_neg (p := fun c => decide (c ≠ backslash)) stop, append_nil]
    rfl

theorem hasDevice (path : JSString) : HasDevice path (readDevice (splitDevice path).device) := by
  obtain ⟨d, has⟩ := exists_hasDevice path
  rwa [has.eq]

theorem proper_names (l : JSString) : ∀ name ∈ names l, Proper name ∧ Free name := by
  intro name mem
  obtain ⟨part, proper⟩ := mem_names_place mem
  exact ⟨proper, free_of_mem_splitRuns (mem_of_mem_filter part)⟩

/-- Where the loop has come to -/
def Resolving.location (s : Resolving) (finished : s.Finished) : Location where
  device := readDevice s.device
  names := Win32.names s.tail
  valid := by
    obtain ⟨path, read⟩ := finished.read
    rw [← read]
    exact (hasDevice path).valid
  some_ := by
    obtain ⟨path, read⟩ := finished.read
    rw [← read]
    refine fun none_ => finished.device ?_
    rw [← read]
    exact (hasDevice path).empty.mpr none_
  proper := proper_names s.tail

theorem Resolving.Finished.result_eq (finished : s.Finished) :
    s.result = (s.location finished).text := by
  obtain ⟨path, read⟩ := finished.read
  have normal : (if s.isUnc = true then normalizeUNCRoot s.device else s.device) =
      (readDevice s.device).text := by
    rw [finished.isUnc, ← read]
    exact (hasDevice path).normal
  have tail : normalizeArray (splitRuns s.tail) (!s.absolute) = Win32.names s.tail := by
    rw [normalizeArray_eq, finished.absolute, place_splitRuns, render, Bool.not_true,
      ups_place_false]
    rfl
  rw [finished.absolute] at tail
  rw [Resolving.result]
  simp only [normal, tail, finished.absolute, if_true]
  rw [if_neg]
  · rw [append_assoc, singleton_append]
    rfl
  · simp

theorem loop_finished (dirs : Directories table) (paths : List JSString) :
    (resolveLoop dirs paths.reverse .start).Finished :=
  (resolveLoop_finished dirs _ Resolving.pending_start).1

/-- Where the arguments lead to -/
def arrival (dirs : Directories table) (paths : List JSString) : Location :=
  (resolveLoop dirs paths.reverse .start).location (loop_finished dirs paths)

theorem resolve_eq (dirs : Directories table) (paths : List JSString) :
    resolve dirs paths = (arrival dirs paths).text :=
  (loop_finished dirs paths).result_eq

/-- Where a path leads to: on its device, or on the one of the current directory, from the directory
there, or from the root -/
def locate (dirs : Directories table) (path : JSString) : Location where
  device :=
    if (splitDevice path).device = [] then readDevice (splitDevice dirs.cwd).device
    else readDevice (splitDevice path).device
  names :=
    if isAbsolute path then names (splitDevice path).tail
    else
      names ((splitDevice (Resolving.base dirs (splitDevice path).device)).tail ++
        backslash :: (splitDevice path).tail)
  valid := by
    split_ifs
    · exact (hasDevice dirs.cwd).valid
    · exact (hasDevice path).valid
  some_ := by
    split_ifs with none_
    · exact mt (hasDevice dirs.cwd).empty.mpr dirs.cwd_device
    · exact mt (hasDevice path).empty.mpr none_
  proper := by
    split_ifs
    · exact proper_names _
    · exact proper_names _

section

variable (dirs : Directories table) (path : JSString)

theorem locate_device : (locate dirs path).device =
      if (splitDevice path).device = [] then readDevice (splitDevice dirs.cwd).device
      else readDevice (splitDevice path).device := rfl

theorem locate_names : (locate dirs path).names =
      if isAbsolute path then names (splitDevice path).tail
      else
        names ((splitDevice (Resolving.base dirs (splitDevice path).device)).tail ++
          backslash :: (splitDevice path).tail) := rfl

theorem resolveLoop_cons (rest : List JSString)
    (s : Resolving) : resolveLoop dirs (path :: rest) s =
      if (s.add table path).done then s.add table path
      else resolveLoop dirs rest (s.add table path) := rfl

end

theorem names_concat_slash (l : JSString) : names (l ++ [backslash]) = names l := by
  rw [names, parts_concat_slash rfl]
  rfl

theorem names_append_slashes (l l' : JSString) :
    names (l ++ backslash :: (l' ++ [backslash])) = names (l ++ backslash :: l') := by
  rw [names, names, parts_append rfl l, parts_concat_slash rfl, parts_append rfl l]

theorem names_backslash (l : JSString) : names (l ++ backslash :: []) = names l :=
  names_concat_slash l

/-- The variables after the first path -/
def Resolving.read (path : JSString) : Resolving where
  device := (splitDevice path).device
  tail := (splitDevice path).tail ++ [backslash]
  absolute := isAbsolute path
  isUnc := Win32.isUnc (splitDevice path).device

theorem Resolving.add_start (table : LowerCase) (filled : path ≠ []) :
    Resolving.start.add table path = .read path :=
  add_same filled fun other => other.2.1 rfl

theorem Resolving.add_base_eq (dirs : Directories table) (pending : s.Pending) :
    (s.add table (base dirs s.device)).device =
        (if s.device = [] then (splitDevice dirs.cwd).device else s.device) ∧
      (s.add table (base dirs s.device)).tail = if s.absolute then s.tail
        else (splitDevice (base dirs s.device)).tail ++ backslash :: s.tail := by
  obtain ⟨filled, same, -, -⟩ := base_eq dirs pending
  rw [add_same filled same]
  refine ⟨?_, rfl⟩
  by_cases none_ : s.device = []
  · simp [none_, base]
  · simp [none_]

theorem arrival_singleton (dirs : Directories table) (path : JSString) :
    arrival dirs [path] = locate dirs path := by
  have ext : ∀ {s : Resolving}, resolveLoop dirs [path].reverse .start = s →
      readDevice s.device = (locate dirs path).device → names s.tail = (locate dirs path).names →
        arrival dirs [path] = locate dirs path := by
    rintro s rfl device names
    exact Location.ext device names
  have from_base : ∀ {s : Resolving}, s.Pending → s.device = (splitDevice path).device →
      s.absolute = isAbsolute path →
      (isAbsolute path = true → names s.tail = names (splitDevice path).tail) →
      (∀ l, names (l ++ backslash :: s.tail) = names (l ++ backslash :: (splitDevice path).tail)) →
      resolveLoop dirs [path].reverse .start =
        s.add table (Resolving.base dirs s.device) → arrival dirs [path] = locate dirs path := by
    intro s pending device absolute tail tail' eq
    obtain ⟨device', tail''⟩ := Resolving.add_base_eq dirs pending
    refine ext eq ?_ ?_
    · rw [device', device, locate_device]
      split_ifs
      · rfl
      · rfl
    rw [tail'', absolute, locate_names, device]
    split_ifs with absolute'
    · exact tail absolute'
    · exact tail' _
  by_cases empty : path = []
  · subst empty
    refine from_base Resolving.pending_start rfl rfl (by rintro ⟨⟩) (fun l => rfl) ?_
    change resolveLoop dirs [[]] .start = _
    rfl
  have added := Resolving.add_start table empty
  have next : resolveLoop dirs [path].reverse .start =
      if (Resolving.read path).done then .read path else resolveLoop dirs [] (.read path) := by
    simp [resolveLoop_cons, added]
  rcases (Resolving.add_pending table Resolving.pending_start path).2 with finished | pending
  · rw [added] at finished
    rw [if_pos finished.done] at next
    have absolute : isAbsolute path = true := finished.absolute
    refine ext next ?_ ?_
    · exact (if_neg finished.device).symm
    rw [locate_names, if_pos absolute]
    exact names_concat_slash _
  rw [added] at pending
  rw [if_neg (Bool.eq_false_iff.mp pending.not_done)] at next
  exact from_base pending rfl rfl (fun _ => names_concat_slash _)
    (fun l => names_append_slashes l _) next

/-! ## Two paths -/

/-- The place that the names lead to -/
def below (names : List JSString) : Position JSString := ⟨0, names⟩

theorem names_walk {first : JSString} (closed : ∃ l, first = l ++ [backslash]) (l : JSString) :
    names (first ++ (l ++ [backslash])) =
      (walk false (below (names first)) ((parts l).map move)).names := by
  obtain ⟨l', rfl⟩ := closed
  have here : below (names (l' ++ [backslash])) = place false (parts l') := by
    rw [names_concat_slash]
    exact congrArg (fun ups => (⟨ups, names l'⟩ : Position JSString))
      (ups_place_false (parts l')).symm
  rw [append_assoc, singleton_append, names_append_slashes, here, names,
    parts_append rfl, place, map_append, Position.walk_append]
  rfl

section

variable (dirs : Directories table) (origin : JSString)

theorem arrival_pair (filled : path ≠ []) : resolveLoop dirs [origin, path].reverse .start =
    if (Resolving.read path).done then .read path
    else resolveLoop dirs [origin] (.read path) := by
  change resolveLoop dirs [path, origin] .start = _
  rw [resolveLoop_cons, Resolving.add_start table filled]

theorem arrival_nil : arrival dirs [origin, []] = arrival dirs [origin] := by
  have same : resolveLoop dirs [origin, []].reverse .start =
      resolveLoop dirs [origin].reverse .start := by
    change resolveLoop dirs [[], origin] .start = resolveLoop dirs [origin] .start
    rfl
  exact Location.ext (congrArg (fun s : Resolving => readDevice s.device) same)
    (congrArg (fun s : Resolving => names s.tail) same)

theorem arrival_relative
    (filled : path ≠ []) (device : (splitDevice path).device = [])
    (relative : isAbsolute path = false) :
    (arrival dirs [origin, path]).device = (arrival dirs [origin]).device ∧
      (arrival dirs [origin, path]).names = (walk false (below (arrival dirs [origin]).names)
          ((parts (splitDevice path).tail).map move)).names := by
  have eq : Resolving.read path = Resolving.start.append
    ((splitDevice path).tail ++ [backslash]) := by
    rw [Resolving.read, device, relative]
    rfl
  have not_done : ¬(Resolving.read path).done = true := by
    rw [Resolving.read, device]
    exact Bool.false_ne_true
  have found := arrival_pair dirs origin filled
  rw [if_neg not_done, eq, resolveLoop_append] at found
  have device' := congrArg (fun s : Resolving => readDevice s.device) found
  refine ⟨device', (congrArg (fun s : Resolving => names s.tail) found).trans ?_⟩
  exact names_walk (loop_finished dirs [origin]).closed _

theorem arrival_absolute
    (device : (splitDevice path).device ≠ []) (absolute : isAbsolute path = true) :
    (arrival dirs [origin, path]).device = readDevice (splitDevice path).device ∧
      (arrival dirs [origin, path]).names = names (splitDevice path).tail := by
  have filled : path ≠ [] := by
    rintro rfl
    exact device rfl
  have done : (Resolving.read path).done = true := by
    simpa [Resolving.done] using ⟨device, absolute⟩
  have found := arrival_pair dirs origin filled
  rw [if_pos done] at found
  refine ⟨congrArg (fun s : Resolving => readDevice s.device) found, ?_⟩
  exact (congrArg (fun s : Resolving => names s.tail) found).trans (names_concat_slash _)

end

/-- Where a path leads to on a drive, if it is not for another device -/
def standing (dirs : Directories table) (drive path : JSString) : List JSString :=
  let device := (splitDevice path).device
  if path = [] ∨ device ≠ [] ∧ table.toLowerCase device ≠ table.toLowerCase drive then
    names (splitDevice (dirs.ofDrive drive)).tail
  else if isAbsolute path then names (splitDevice path).tail
  else names ((splitDevice (dirs.ofDrive drive)).tail ++ backslash :: (splitDevice path).tail)

theorem resolveLoop_drive (dirs : Directories table) (origin : JSString) {drive : JSString}
    (some_ : drive ≠ []) (pending : Resolving.Pending ⟨drive, [], false, false⟩) :
    (resolveLoop dirs [origin] ⟨drive, [], false, false⟩).Finished ∧
      (resolveLoop dirs [origin] ⟨drive, [], false, false⟩).device = drive ∧
        names (resolveLoop dirs [origin] ⟨drive, [], false, false⟩).tail =
          standing dirs drive origin := by
  obtain ⟨finished, kept⟩ := resolveLoop_finished dirs [origin] pending
  refine ⟨finished, kept some_, ?_⟩
  have from_base : ∀ {s : Resolving}, s.Pending → s.device = drive → s.absolute = false →
      names (s.add table (Resolving.base dirs s.device)).tail =
        names ((splitDevice (dirs.ofDrive drive)).tail ++ backslash :: s.tail) := by
    intro s pending device relative
    rw [(Resolving.add_base_eq dirs pending).2, relative, device, Resolving.base, if_neg some_]
    rfl
  have not_done : ∀ {s : Resolving}, s.absolute = false → ¬s.done = true := by
    intro s relative
    simp [Resolving.done, relative]
  rw [resolveLoop_cons, standing]
  by_cases empty : origin = []
  · subst empty
    rw [Resolving.add_nil, if_neg (not_done rfl), if_pos (.inl rfl)]
    exact (from_base pending rfl rfl).trans (names_backslash _)
  by_cases other : Resolving.Other table origin ⟨drive, [], false, false⟩
  · rw [Resolving.add_other empty other, if_neg (not_done rfl), if_pos (.inr ⟨other.1, other.2.2⟩)]
    have skipped : Resolving.Pending ⟨drive, [], false, isUnc (splitDevice origin).device⟩ :=
      ⟨pending.device, pending.relative, pending.closed⟩
    exact (from_base skipped rfl rfl).trans (names_backslash _)
  have same : ¬(origin = [] ∨ (splitDevice origin).device ≠ [] ∧
      table.toLowerCase (splitDevice origin).device ≠ table.toLowerCase drive) := by
    rintro (none_ | ⟨device, differs⟩)
    · exact empty none_
    · exact other ⟨device, some_, differs⟩
  have again := (Resolving.add_pending table pending origin).2
  rw [Resolving.add_same empty other] at again ⊢
  simp only [if_neg some_, Bool.false_eq_true, if_false, Bool.false_or] at again ⊢
  rw [if_neg same]
  by_cases absolute : isAbsolute origin = true
  · have done : Resolving.done ⟨drive, (splitDevice origin).tail ++ [backslash],
        isAbsolute origin, isUnc (splitDevice origin).device⟩ = true := by
      simpa [Resolving.done] using ⟨some_, absolute⟩
    rw [if_pos done, if_pos absolute]
    exact names_concat_slash _
  have relative := Bool.eq_false_iff.mpr absolute
  rw [relative] at again ⊢
  rw [if_neg (not_done rfl), if_neg Bool.false_ne_true]
  have pending' := again.resolve_left nofun
  exact (from_base pending' rfl rfl).trans (names_append_slashes _ _)

theorem arrival_drive (dirs : Directories table) (origin : JSString)
    (device : (splitDevice path).device ≠ []) (relative : isAbsolute path = false) :
    (arrival dirs [origin, path]).device = readDevice (splitDevice path).device ∧
      (arrival dirs [origin, path]).names =
        (walk false (below (standing dirs (splitDevice path).device origin))
          ((parts (splitDevice path).tail).map move)).names := by
  have filled : path ≠ [] := by
    rintro rfl
    exact device rfl
  have not_unc : isUnc (splitDevice path).device = false := by grind [isAbsolute]
  have not_done : ¬(Resolving.read path).done = true := by
    simp [Resolving.done, Resolving.read, relative]
  have eq : Resolving.read path = Resolving.append ⟨(splitDevice path).device, [], false, false⟩
        ((splitDevice path).tail ++ [backslash]) := by
    rw [Resolving.read, relative, not_unc]
    rfl
  have pending : Resolving.Pending ⟨(splitDevice path).device, [], false, false⟩ :=
    ⟨.inr (exists_drive device not_unc), fun _ => rfl, .inl ⟨rfl, rfl⟩⟩
  obtain ⟨finished, kept, stands⟩ := resolveLoop_drive dirs origin device pending
  have found := arrival_pair dirs origin filled
  rw [if_neg not_done, eq, resolveLoop_append] at found
  refine ⟨(congrArg (fun s : Resolving => readDevice s.device) found).trans
    (congrArg readDevice kept), ?_⟩
  rw [← stands]
  exact (congrArg (fun s : Resolving => names s.tail) found).trans (names_walk finished.closed _)

end Win32

end IoJs.Path
