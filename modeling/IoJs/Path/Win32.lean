import IoJs.Path.Components
import Mathlib.Data.List.TakeWhile

/-!
# Paths of Windows

A path of Windows may begin with a device, a drive or the server and the share of a UNC path
(`splitDevice`). `normalize` takes the device off, and what is behind it is normalized as on POSIX,
but for the two kinds of slashes.

What has been written is read again, part by part (`splitRuns_writeTail`).
-/

namespace IoJs.Path

open IoJs.Stream IoJs.RegExp IoJs.Library List

namespace Win32

def backslash : UInt16 := unit '\\'

def isSlash (c : UInt16) : Bool := c == unit '\\' || c == unit '/'

/-- `[a-zA-Z]` -/
def isLetter (c : UInt16) : Bool := (unit 'a' ≤ c && c ≤ unit 'z') || (unit 'A' ≤ c && c ≤ unit 'Z')

def colon : UInt16 := unit ':'

/-- `[a-zA-Z]:`, and what is behind it -/
def splitDrive : JSString → Option (JSString × JSString)
  | c :: c' :: rest => if isLetter c ∧ c' = colon then some ([c, c'], rest) else none
  | _ => none

/-- `[\\\/]{2}[^\\\/]+[\\\/]+[^\\\/]+`, and what is behind it -/
def splitUNC : JSString → Option (JSString × JSString)
  | c :: c' :: rest =>
    let server := rest.takeWhile (!isSlash ·)
    let rest := rest.dropWhile (!isSlash ·)
    let slashes := rest.takeWhile isSlash
    let rest := rest.dropWhile isSlash
    let share := rest.takeWhile (!isSlash ·)
    if (isSlash c ∧ isSlash c') ∧ server ≠ [] ∧ slashes ≠ [] ∧ share ≠ [] then
      some (c :: c' :: (server ++ slashes ++ share), rest.dropWhile (!isSlash ·))
    else none
  | _ => none

/-- `[*, device, slash, tail]` -/
structure Split where
  device : JSString
  slash : JSString
  tail : JSString

/-- `([\\\/])?([\s\S]*?)$`, behind the device -/
def splitSlash (device : JSString) : JSString → Split
  | c :: tail => if isSlash c then ⟨device, [c], tail⟩ else ⟨device, [], c :: tail⟩
  | [] => ⟨device, [], []⟩

/-- `splitDeviceRe.exec` -/
def splitDevice (path : JSString) : Split :=
  match (splitDrive path).or (splitUNC path) with
  | some (device, rest) => splitSlash device rest
  | none => splitSlash [] path

/-- `isUnc`, of a device -/
def isUnc (device : JSString) : Bool := !device.isEmpty && device[1]? != some colon

/-- `win32.isAbsolute` -/
def isAbsolute (path : JSString) : Bool :=
  !(splitDevice path).slash.isEmpty || isUnc (splitDevice path).device

/-- `.replace(/[\\\/]+/g, '\\')` -/
def replaceRuns : JSString → JSString
  | [] => []
  | c :: rest =>
    if isSlash c then
      if (rest.head?.map isSlash).getD false then replaceRuns rest
      else backslash :: replaceRuns rest
    else c :: replaceRuns rest

def normalizeUNCRoot (device : JSString) : JSString :=
  backslash :: backslash :: replaceRuns (device.dropWhile isSlash)

/-- The device, with the slashes of a UNC root converted -/
def normalizeDevice (device : JSString) : JSString :=
  if isUnc device then normalizeUNCRoot device else device

def splitRuns : JSString → List JSString
  | [] => [[]]
  | c :: rest =>
    if isSlash c then
      if (rest.head?.map isSlash).getD false then splitRuns rest
      else [] :: splitRuns rest
    else (splitRuns rest).modifyHead (c :: ·)

/-- `/[\\\/]$/.test(tail)` -/
def trailingSlash (tail : JSString) : Bool := (tail.getLast?.map isSlash).getD false

/-- `win32.normalize` -/
def normalize (path : JSString) : JSString :=
  let split := splitDevice path
  let isAbsolute := isAbsolute path
  let tail := writeTail backslash isAbsolute (trailingSlash split.tail)
    (normalizeArray (splitRuns split.tail) !isAbsolute)
  normalizeDevice split.device ++ (if isAbsolute then [backslash] else []) ++ tail

example : normalize (js "//server/share/dir/file.ext") = js "\\\\server\\share\\dir\\file.ext" := by
  decide

variable {absolute trailing : Bool} {parts : List JSString} {path p l : JSString} {c : UInt16}
variable {s server slashes share rest : JSString} {c' : UInt16}

/-! ## Splitting -/

/-- Without slashes -/
def Free (p : JSString) : Prop := ∀ c ∈ p, isSlash c = false

/-- What does not begin with a slash -/
def Headed (p : JSString) : Prop := (p.head?.map isSlash).getD false = false

theorem Free.headed (free : Free p) : Headed p := by
  cases p with
  | nil => rfl
  | cons c p => exact free c mem_cons_self

theorem Free.headed_append (free : Free p) (filled : p ≠ []) (l : JSString) : Headed (p ++ l) := by
  cases p with
  | nil => exact absurd rfl filled
  | cons c p => exact free c mem_cons_self

theorem splitRuns_of_free (free : Free p) : splitRuns p = [p] := by
  induction p with
  | nil => rfl
  | cons c p ih =>
    obtain ⟨here, free⟩ := forall_mem_cons.mp free
    rw [splitRuns, if_neg (Bool.eq_false_iff.mp here), ih free]
    rfl

theorem splitRuns_append (free : Free p) (slash : isSlash c = true) (headed : Headed l) :
    splitRuns (p ++ c :: l) = p :: splitRuns l := by
  induction p with
  | nil => rw [nil_append, splitRuns, if_pos slash, if_neg (Bool.eq_false_iff.mp headed)]
  | cons c p ih =>
    obtain ⟨here, free⟩ := forall_mem_cons.mp free
    rw [cons_append, splitRuns, if_neg (Bool.eq_false_iff.mp here), ih free]
    rfl

theorem free_of_mem_splitRuns (mem : p ∈ splitRuns l) : Free p := by
  induction l generalizing p with
  | nil =>
    rw [mem_singleton.mp mem]
    exact nofun
  | cons c l ih =>
    rw [splitRuns] at mem
    split_ifs at mem with slash more
    · exact ih mem
    · rcases mem_cons.mp mem with rfl | later
      · exact nofun
      · exact ih later
    cases split : splitRuns l with
    | nil =>
      rw [split] at mem
      cases mem
    | cons =>
      rw [split] at mem ih
      rcases mem_cons.mp mem with rfl | later
      · exact forall_mem_cons.mpr
          ⟨Bool.eq_false_iff.mpr slash, ih mem_cons_self⟩
      · exact ih (mem_cons_of_mem _ later)

theorem headed_intercalate (free : ∀ p ∈ parts, Free p) (proper : [] ∉ parts.dropLast) :
    Headed ([backslash].intercalate parts) := by
  cases parts with
  | nil => rfl
  | cons first parts =>
    have here := free first mem_cons_self
    cases parts with
    | nil =>
      rw [intercalate_singleton]
      exact here.headed
    | cons =>
      refine here.headed_append ?_ _
      rintro rfl
      exact proper mem_cons_self

theorem splitRuns_intercalate (filled : parts ≠ []) (free : ∀ p ∈ parts, Free p)
    (proper : [] ∉ parts.dropLast) : splitRuns ([backslash].intercalate parts) = parts := by
  induction parts with
  | nil => exact absurd rfl filled
  | cons first parts ih =>
    obtain ⟨here, free⟩ := forall_mem_cons.mp free
    cases parts with
    | nil =>
      rw [intercalate_singleton]
      exact splitRuns_of_free here
    | cons second parts =>
      rw [dropLast_cons_of_ne_nil (cons_ne_nil second parts), mem_cons, not_or] at proper
      rw [intercalate_cons backslash first (cons_ne_nil second parts),
        splitRuns_append here rfl (headed_intercalate free proper.2),
        ih (cons_ne_nil second parts) free proper.2]

theorem free_tailComponents (absolute trailing : Bool) (proper : ∀ p ∈ parts, p ≠ [] ∧ Free p) :
    ∀ p ∈ tailComponents absolute trailing parts, Free p := by
  intro p mem
  rcases mem_tailComponents mem with rfl | part | ⟨rfl, -⟩
  · exact nofun
  · exact (proper p part).2
  intro c mem
  rw [mem_singleton.mp mem]
  decide

theorem splitRuns_writeTail (proper : ∀ p ∈ parts, p ≠ [] ∧ Free p) :
    splitRuns (writeTail backslash absolute trailing parts) =
      tailComponents absolute trailing parts := by
  have filled : ∀ p ∈ parts, p ≠ [] := fun p mem => (proper p mem).1
  rw [writeTail_eq filled]
  exact splitRuns_intercalate tailComponents_ne_nil (free_tailComponents _ _ proper)
    (nil_notMem_dropLast_tailComponents _ _ filled)

/-! ## Devices -/

/-- A device, as `normalize` writes it -/
inductive Device where
  | none
  | drive (letter : UInt16)
  | unc (server share : JSString)

namespace Device

/-- The device is written -/
def text : Device → JSString
  | none => []
  | drive letter => [letter, colon]
  | unc server share => backslash :: backslash :: (server ++ [backslash] ++ share)

/-- Whether it is the root of a UNC path -/
def isUNC : Device → Bool
  | unc _ _ => true
  | _ => false

/-- What the regular expression takes for a device -/
inductive Valid : Device → Prop where
  | none : Valid none
  | drive {letter : UInt16} (isLetter : isLetter letter = true) : Valid (drive letter)
  | unc {server share : JSString} (server_filled : server ≠ []) (server_free : Free server)
      (share_filled : share ≠ []) (share_free : Free share) : Valid (unc server share)

end Device

theorem not_isSlash_of_isLetter (letter : isLetter c = true) : isSlash c = false := by
  refine Bool.eq_false_iff.mpr fun slash => ?_
  rw [isSlash, Bool.or_eq_true, beq_iff_eq, beq_iff_eq] at slash
  rcases slash with rfl | rfl
  · exact absurd letter (by decide)
  · exact absurd letter (by decide)

theorem takeWhile_free (free : Free p) (l : JSString) (stops : l.head?.all isSlash = true) :
    (p ++ l).takeWhile (!isSlash ·) = p ∧ (p ++ l).dropWhile (!isSlash ·) = l := by
  have all : ∀ c ∈ p, (!isSlash c) = true := fun c mem => by rw [free c mem]; rfl
  rw [takeWhile_append_of_pos all, dropWhile_append_of_pos all]
  cases l with
  | nil => exact ⟨append_nil p, rfl⟩
  | cons c l =>
    have slash : ¬(!isSlash c) = true := by
      rw [show isSlash c = true from stops]
      decide
    refine ⟨?_, dropWhile_cons_of_neg slash⟩
    rw [takeWhile_cons_of_neg (p := (!isSlash ·)) slash, append_nil]

theorem takeWhile_slashes (slashes : ∀ c ∈ s, isSlash c = true) (l : JSString) (headed : Headed l) :
    (s ++ l).takeWhile isSlash = s ∧ (s ++ l).dropWhile isSlash = l := by
  rw [takeWhile_append_of_pos slashes, dropWhile_append_of_pos slashes]
  cases l with
  | nil => exact ⟨append_nil s, rfl⟩
  | cons c l =>
    have other : ¬isSlash c = true := Bool.eq_false_iff.mp headed
    rw [takeWhile_cons_of_neg other, dropWhile_cons_of_neg other, append_nil]
    exact ⟨rfl, rfl⟩

theorem splitUNC_eq (first : isSlash c = true) (second : isSlash c' = true)
    (server_filled : server ≠ []) (server_free : Free server)
    (slashes_filled : slashes ≠ []) (all : ∀ c ∈ slashes, isSlash c = true)
    (share_filled : share ≠ []) (share_free : Free share) (stops : rest.head?.all isSlash = true) :
    splitUNC (c :: c' :: (server ++ (slashes ++ (share ++ rest)))) =
      some (c :: c' :: (server ++ slashes ++ share), rest) := by
  have stops' : (slashes ++ (share ++ rest)).head?.all isSlash = true := by
    obtain ⟨s, slashes, rfl⟩ := exists_cons_of_ne_nil slashes_filled
    exact all s mem_cons_self
  have one := takeWhile_free server_free _ stops'
  have two := takeWhile_slashes all (share ++ rest) (share_free.headed_append share_filled rest)
  have three := takeWhile_free share_free rest stops
  rw [splitUNC]
  simp only [one.1, one.2, two.1, two.2, three.1, three.2]
  exact if_pos ⟨⟨first, second⟩, server_filled, slashes_filled, share_filled⟩

theorem replaceRuns_free (free : Free p) (l : JSString) :
    replaceRuns (p ++ l) = p ++ replaceRuns l := by
  induction p with
  | nil => rfl
  | cons c p ih =>
    obtain ⟨here, free⟩ := forall_mem_cons.mp free
    rw [cons_append, replaceRuns, if_neg (Bool.eq_false_iff.mp here), ih free]
    rfl

theorem replaceRuns_slashes (filled : s ≠ []) (slashes : ∀ c ∈ s, isSlash c = true)
    (headed : Headed l) : replaceRuns (s ++ l) = backslash :: replaceRuns l := by
  induction s with
  | nil => exact absurd rfl filled
  | cons c s ih =>
    obtain ⟨here, slashes⟩ := forall_mem_cons.mp slashes
    rw [cons_append, replaceRuns, if_pos here]
    cases s with
    | nil => rw [nil_append, if_neg (Bool.eq_false_iff.mp headed)]
    | cons c' s =>
      have more : (((c' :: s) ++ l).head?.map isSlash).getD false = true := slashes c' mem_cons_self
      rw [if_pos more, ih (cons_ne_nil c' s) slashes]

theorem normalizeUNCRoot_eq (first : isSlash c = true) (second : isSlash c' = true)
    (server_filled : server ≠ []) (server_free : Free server)
    (slashes_filled : slashes ≠ []) (all : ∀ c ∈ slashes, isSlash c = true)
    (share_free : Free share) :
    normalizeUNCRoot (c :: c' :: (server ++ slashes ++ share)) =
      (Device.unc server share).text := by
  have lead : (c :: c' :: (server ++ slashes ++ share)).dropWhile isSlash =
      server ++ (slashes ++ share) := by
    rw [dropWhile_cons_of_pos first, dropWhile_cons_of_pos second, append_assoc]
    have none := takeWhile_slashes (s := []) (by simp) (server ++ (slashes ++ share))
      (server_free.headed_append server_filled _)
    exact none.2
  have last := replaceRuns_free share_free []
  rw [append_nil, replaceRuns, append_nil] at last
  rw [normalizeUNCRoot, lead, replaceRuns_free server_free,
    replaceRuns_slashes slashes_filled all share_free.headed, last, Device.text,
    append_assoc, singleton_append]

variable {d : Device}

theorem Device.Valid.normalizeDevice_text (valid : d.Valid) :
    normalizeDevice d.text = d.text ∧ isUnc d.text = d.isUNC := by
  cases valid with
  | none => exact ⟨rfl, rfl⟩
  | @drive c letter =>
    have other : isUnc [c, colon] = false := rfl
    exact ⟨if_neg (Bool.eq_false_iff.mp other), other⟩
  | unc server_filled server_free share_filled share_free =>
    refine ⟨?_, rfl⟩
    refine (if_pos rfl).trans ?_
    exact normalizeUNCRoot_eq rfl rfl server_filled server_free (cons_ne_nil _ _)
      (by simp [isSlash, backslash]) share_free

theorem splitDrive_of_headed_slash (slash : isSlash c = true) (l : JSString) :
    splitDrive (c :: l) = none := by
  cases l with
  | nil => rfl
  | cons c' l =>
    refine if_neg ?_
    rintro ⟨letter, -⟩
    rw [not_isSlash_of_isLetter letter] at slash
    cases slash

theorem splitUNC_of_headed (l : JSString)
    (headed : isSlash c = false ∨ isSlash c' = false) : splitUNC (c :: c' :: l) = none := by
  refine if_neg ?_
  rintro ⟨⟨first, second⟩, -⟩
  rcases headed with none | none
  · rw [none] at first
    cases first
  rw [none] at second
  cases second

theorem Device.Valid.splitDevice_append (valid : d.Valid)
    (plain : d = .none → splitDrive rest = Option.none ∧ splitUNC rest = Option.none)
    (stops : d.isUNC = true → rest.head?.all isSlash = true) :
    splitDevice (d.text ++ rest) = splitSlash d.text rest := by
  cases valid with
  | none =>
    obtain ⟨noDrive, noUNC⟩ := plain rfl
    rw [Device.text, nil_append, splitDevice, noDrive, noUNC]
    rfl
  | @drive c letter =>
    have drive : splitDrive (c :: colon :: rest) = some ([c, colon], rest) := if_pos ⟨letter, rfl⟩
    change splitDevice (c :: colon :: rest) = _
    rw [splitDevice, drive]
    rfl
  | @unc server share server_filled server_free share_filled share_free =>
    have unc : splitUNC (backslash :: backslash :: (server ++ ([backslash] ++ (share ++ rest)))) =
        some ((Device.unc server share).text, rest) :=
      splitUNC_eq rfl rfl server_filled server_free (cons_ne_nil backslash [])
        (by simp [isSlash, backslash]) share_filled share_free (stops rfl)
    have whole : (Device.unc server share).text ++ rest =
        backslash :: backslash :: (server ++ ([backslash] ++ (share ++ rest))) := by
      simp only [Device.text, cons_append, append_assoc]
    rw [whole, splitDevice, unc, splitDrive_of_headed_slash rfl]
    rfl

/-- The device of a path, as `normalize` writes it -/
structure HasDevice (path : JSString) (d : Device) : Prop where
  valid : d.Valid
  normal : normalizeDevice (splitDevice path).device = d.text
  unc : isUnc (splitDevice path).device = d.isUNC
  empty : (splitDevice path).device = [] ↔ d = .none
  plain : d = .none → splitDevice path = splitSlash [] path

theorem splitSlash_device (device l : JSString) : (splitSlash device l).device = device := by
  cases l with
  | nil => rfl
  | cons c l =>
    rw [splitSlash]
    split
    · rfl
    · rfl

theorem exists_of_splitUNC {device : JSString} (read : splitUNC path = some (device, rest)) :
    ∃ d : Device, d.Valid ∧ d.isUNC = true ∧ isUnc device = true ∧
      normalizeUNCRoot device = d.text := by
  cases path with
  | nil => cases read
  | cons c path =>
    cases path with
    | nil => cases read
    | cons c' path =>
      rw [splitUNC] at read
      split_ifs at read with found
      obtain ⟨⟨first, second⟩, server_filled, slashes_filled, share_filled⟩ := found
      have server_free : Free (path.takeWhile (!isSlash ·)) := fun c mem => by
        have other := mem_takeWhile_imp mem
        rwa [Bool.not_eq_true'] at other
      have share_free : Free (((path.dropWhile (!isSlash ·)).dropWhile isSlash).takeWhile
          (!isSlash ·)) := fun c mem => by
        have other := mem_takeWhile_imp mem
        rwa [Bool.not_eq_true'] at other
      obtain ⟨rfl, -⟩ := Prod.mk.inj (Option.some.inj read)
      refine ⟨.unc _ _, .unc server_filled server_free share_filled share_free, rfl, ?_, ?_⟩
      · have notColon : c' ≠ colon := by
          rintro rfl
          cases second
        rw [isUnc]
        simpa using notColon
      exact normalizeUNCRoot_eq first second server_filled server_free slashes_filled
        (fun c mem => mem_takeWhile_imp mem) share_free

/-- Each path has one of the devices. -/
theorem exists_hasDevice (path : JSString) : ∃ d, HasDevice path d := by
  cases drive : splitDrive path with
  | some found =>
    obtain ⟨device, rest⟩ := found
    have read : (splitDevice path).device = device := by
      rw [splitDevice, drive]
      exact splitSlash_device device rest
    cases path with
    | nil => cases drive
    | cons c path =>
      cases path with
      | nil => cases drive
      | cons =>
        rw [splitDrive] at drive
        split_ifs at drive with found
        obtain ⟨letter, rfl⟩ := found
        obtain ⟨rfl, rfl⟩ := Prod.mk.inj (Option.some.inj drive)
        refine ⟨.drive c, .drive letter, ?_, ?_, ?_, nofun⟩
        · rw [read]
          exact (Device.Valid.drive letter).normalizeDevice_text.1
        · rw [read]
          exact (Device.Valid.drive letter).normalizeDevice_text.2
        rw [read]
        simp
  | none =>
    cases unc : splitUNC path with
    | some found =>
      obtain ⟨device, rest⟩ := found
      have read : (splitDevice path).device = device := by
        rw [splitDevice, drive, unc]
        exact splitSlash_device device rest
      obtain ⟨d, valid, isUNC, unc', normal⟩ := exists_of_splitUNC unc
      refine ⟨d, valid, ?_, ?_, ?_, ?_⟩
      · rw [read, normalizeDevice, if_pos unc', normal]
      · rw [read, unc', isUNC]
      · rw [read]
        constructor
        · rintro rfl
          cases unc'
        rintro rfl
        cases isUNC
      rintro rfl
      cases isUNC
    | none =>
      have whole : splitDevice path = splitSlash [] path := by
        rw [splitDevice, drive, unc]
        rfl
      have read : (splitDevice path).device = [] := by
        rw [whole]
        exact splitSlash_device [] path
      refine ⟨.none, .none, ?_, ?_, ?_, fun _ => whole⟩
      · rw [read]
        rfl
      · rw [read]
        rfl
      rw [read]
      simp

end Win32

end IoJs.Path
