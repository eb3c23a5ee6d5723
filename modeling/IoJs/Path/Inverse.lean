import IoJs.Path.Resolve

/-!
# Relative paths of Windows

`relative` takes two resolved paths for lists of components, a drive for one component and a UNC
root for two of them. What the lists have in common does not tell whether it is a whole device, and
a component behind it may look like a drive.
-/

namespace IoJs.Path

open IoJs.Stream IoJs.RegExp IoJs.Library List Option
open IoJs.Library.Position (start go walk)

namespace Win32

variable {table : LowerCase}
variable {before ps rest : List JSString} {k : Nat} {name r : JSString} {c : UInt16}

/-! ## Components of a location -/

theorem notMem_of_free {p : JSString} (free : Free p) : backslash ∉ p :=
  fun mem => Bool.noConfusion (free _ mem)

theorem LowerCase.intercalate (table : LowerCase) (parts : List JSString) :
    table.toLowerCase ([backslash].intercalate parts) =
      [backslash].intercalate (parts.map table.toLowerCase) := by
  induction parts with
  | nil => exact table.nil
  | cons part parts ih =>
    by_cases last : parts = []
    · subst last
      simp
    rw [map_cons, intercalate_cons backslash part last, table.split rfl, ih,
      intercalate_cons backslash _ (mt map_eq_nil_iff.mp last)]

/-- The components of a device -/
def Device.parts : Device → List JSString
  | none => []
  | drive letter => [[letter, colon]]
  | unc server share => [server, share]

/-- The components of a location -/
def Location.parts (l : Location) : List JSString := l.device.parts ++ l.names

/-- What is between the slashes of a location, which begins with two of them or not -/
def Location.components (l : Location) : List JSString :=
  (if l.device.isUNC then [[], []] else []) ++ (l.parts ++ if l.names = [] then [[]] else [])

theorem Device.Valid.parts {d : Device} (valid : d.Valid) : ∀ p ∈ d.parts, p ≠ [] ∧ Free p := by
  cases valid with
  | none =>
    intro p mem
    cases mem
  | @drive c letter =>
    intro p mem
    rw [mem_singleton.mp mem]
    refine ⟨cons_ne_nil _ _, fun c' mem => ?_⟩
    rcases mem_pair.mp mem with rfl | rfl
    · exact not_isSlash_of_isLetter letter
    · exact not_isSlash_colon
  | unc server_filled server_free share_filled share_free =>
    intro p mem
    rcases mem_pair.mp mem with rfl | rfl
    · exact ⟨server_filled, server_free⟩
    · exact ⟨share_filled, share_free⟩

namespace Location

variable {l l' : Location}

section

variable (l : Location)

theorem filled : ∀ p ∈ l.parts, p ≠ [] ∧ Free p := by
  intro p mem
  rcases mem_append.mp mem with device | name
  · exact l.valid.parts p device
  · exact ⟨(l.proper p name).1.filled, (l.proper p name).2⟩

theorem parts_device_ne_nil : l.device.parts ≠ [] := by
  have some_ := l.some_
  cases device : l.device with
  | none => exact absurd device some_
  | drive | unc => exact cons_ne_nil _ _

theorem parts_ne_nil : l.parts ≠ [] := append_ne_nil_of_left_ne_nil l.parts_device_ne_nil _

theorem components_free : ∀ p ∈ l.components, Free p := by
  have empty : ∀ p : JSString, p = [] → Free p := by rintro p rfl c ⟨⟩
  intro p mem
  rcases mem_append.mp mem with lead | rest
  · split_ifs at lead
    · exact empty p (by simpa using lead)
    · cases lead
  rcases mem_append.mp rest with part | last
  · exact (l.filled p part).2
  · grind

theorem components_ne_nil : l.components ≠ [] :=
  append_ne_nil_of_right_ne_nil _ (append_ne_nil_of_left_ne_nil l.parts_ne_nil _)

theorem text_eq : l.text = [backslash].intercalate l.components := by
  have tail : ∀ part : JSString, part ++ backslash :: [backslash].intercalate l.names =
      [backslash].intercalate (part :: (l.names ++ if l.names = [] then [[]] else [])) := by
    intro part
    by_cases empty : l.names = []
    · simp [empty]
    · simp [empty, intercalate_cons backslash part empty]
  rw [text, components, Location.parts]
  cases device : l.device with
  | none => exact absurd device l.some_
  | drive letter => exact tail [letter, colon]
  | unc server share =>
    have read := tail share
    have lead : ∀ rest : List JSString, rest ≠ [] →
        [backslash].intercalate ([] :: [] :: server :: rest) =
          backslash :: backslash :: (server ++ backslash :: [backslash].intercalate rest) := by
      intro rest some_
      simp [intercalate_cons backslash [] (cons_ne_nil _ _),
        intercalate_cons backslash server some_]
    refine Eq.trans ?_ (lead _ (cons_ne_nil share _)).symm
    change _ = backslash :: backslash :: (server ++ backslash ::
      [backslash].intercalate (share :: (l.names ++ if l.names = [] then [[]] else [])))
    rw [← read]
    simp [Device.text]

theorem splitOn_text : l.text.splitOn backslash = l.components := by
  rw [text_eq]
  exact splitOn_intercalate backslash (fun p mem => notMem_of_free (l.components_free p mem))
    l.components_ne_nil

end

theorem splitOn_lower (table : LowerCase) (l : Location) :
    (table.toLowerCase l.text).splitOn backslash = l.components.map table.toLowerCase := by
  rw [text_eq, table.intercalate]
  refine splitOn_intercalate backslash ?_ (mt map_eq_nil_iff.mp l.components_ne_nil)
  intro p mem
  obtain ⟨part, found, rfl⟩ := List.mem_map.mp mem
  exact table.plain rfl (notMem_of_free (l.components_free part found))

end Location

/-! ## The components that `relative` compares -/

theorem trim_append {after : List JSString} (begins : ∀ p ∈ before, p = [])
    (ends : ∀ p ∈ after, p = []) (filled : ∀ p ∈ ps, p ≠ []) (some_ : ps ≠ []) :
    trim (before ++ (ps ++ after)) = ps := by
  have first : (before ++ (ps ++ after)).dropWhile (fun p => p = []) = ps ++ after := by
    rw [dropWhile_append_of_pos fun p mem => decide_eq_true (begins p mem)]
    cases ps with
    | nil => exact absurd rfl some_
    | cons p ps =>
      refine dropWhile_cons_of_neg ?_
      simpa using filled p mem_cons_self
  rw [trim, first]
  clear first
  induction after using List.reverseRecOn with
  | nil =>
    rw [append_nil]
    refine rdropWhile_eq_self_iff.mpr fun some_ => ?_
    simpa using filled _ (getLast_mem some_)
  | append_singleton after p ih =>
    obtain ⟨ends, last⟩ := forall_mem_append.mp ends
    have gone : decide (p = []) = true := decide_eq_true (last p mem_cons_self)
    rw [← append_assoc]
    exact (rdropWhile_concat_pos (fun p : JSString => decide (p = [])) _ p gone).trans
      (ih ends)

namespace Location

variable {l l' : Location}

theorem trim_components (l : Location) : trim l.components = l.parts := by
  refine trim_append ?_ ?_ (fun p mem => (l.filled p mem).1) l.parts_ne_nil
  · simp
  · simp

/-- The components in lower case -/
def lower (table : LowerCase) (l : Location) : List JSString := l.parts.map table.toLowerCase

theorem trim_lower (table : LowerCase) (l : Location) :
    trim (l.components.map table.toLowerCase) = l.lower table := by
  rw [components, map_append, map_append]
  have empty : ∀ p : JSString, p = [] → table.toLowerCase p = [] := by
    rintro p rfl
    exact table.nil
  refine trim_append ?_ ?_ ?_ (mt map_eq_nil_iff.mp l.parts_ne_nil)
  · intro p mem
    obtain ⟨part, found, rfl⟩ := List.mem_map.mp mem
    split_ifs at found
    · exact empty part (by simpa using found)
    · cases found
  · grind
  intro p mem
  obtain ⟨part, found, rfl⟩ := List.mem_map.mp mem
  exact table.filled (l.filled part found).1

/-- The same location, in upper or lower case -/
structure Alike (table : LowerCase) (l l' : Location) : Prop where
  isUNC : l.device.isUNC = l'.device.isUNC
  parts : l.lower table = l'.lower table

theorem head_lower (table : LowerCase) (l : Location) :
    (l.components.map table.toLowerCase).head? = some [] ↔ l.device.isUNC = true := by
  rw [components]
  by_cases unc : l.device.isUNC = true
  · simp [unc, table.nil]
  rw [if_neg unc, iff_false_right unc, nil_append]
  obtain ⟨p, ps, eq⟩ := exists_cons_of_ne_nil l.parts_ne_nil
  have some_ := table.filled (l.filled p (eq ▸ mem_cons_self)).1
  rw [eq]
  exact fun none_ => some_ (some.inj none_)

theorem length_device_parts {d : Device} (some_ : d ≠ .none) :
    d.parts.length = if d.isUNC then 2 else 1 := by
  cases d with
  | none => exact absurd rfl some_
  | drive => rfl
  | unc => rfl

theorem length_parts (l : Location) :
    l.parts.length = (if l.device.isUNC then 2 else 1) + l.names.length := by
  simp [Location.parts, length_device_parts l.some_]

theorem Alike.length_names (alike : Alike table l l') : l.names.length = l'.names.length := by
  have lengths := congrArg List.length alike.parts
  rw [lower, lower, length_map, length_map, length_parts, length_parts, alike.isUNC] at lengths
  exact Nat.add_left_cancel lengths

/-- **Two locations are the same in lower case** if they are components for component, and neither
is a UNC root while the other is not. -/
theorem same_iff (table : LowerCase) (l l' : Location) :
    table.toLowerCase l.text = table.toLowerCase l'.text ↔ Alike table l l' := by
  constructor
  · intro same
    have read := congrArg (List.splitOn backslash) same
    rw [splitOn_lower, splitOn_lower] at read
    constructor
    · simp [Bool.eq_iff_iff, ← head_lower table, read]
    · simp [← trim_lower, read]
  intro alike
  have root : (l.names = []) = (l'.names = []) := by simp [← length_eq_zero_iff, alike.length_names]
  have parts := alike.parts
  rw [lower, lower] at parts
  rw [text_eq, text_eq, table.intercalate, table.intercalate, components, components,
    map_append, map_append, map_append, map_append, parts, alike.isUNC]
  simp only [root]

/-! ## Reading a location -/

theorem text_device (l : Location) :
    splitDevice l.text = ⟨l.device.text, [backslash], [backslash].intercalate l.names⟩ :=
  l.valid.splitDevice_append (fun none_ => absurd none_ l.some_) fun _ => rfl

theorem hasDevice_text (l : Location) : HasDevice l.text l.device where
  valid := l.valid
  normal := by
    rw [text_device]
    exact l.valid.normalizeDevice_text.1
  unc := by
    rw [text_device]
    exact l.valid.normalizeDevice_text.2
  empty := by
    rw [text_device]
    refine ⟨Device.eq_none_of_text, fun none_ => ?_⟩
    rw [none_]
    rfl
  plain none_ := absurd none_ l.some_

end Location

theorem parts_intercalate (filled : ∀ p ∈ ps, p ≠ [] ∧ Free p) :
    parts ([backslash].intercalate ps) = ps := by
  by_cases empty : ps = []
  · subst empty
    rfl
  rw [parts, splitRuns_intercalate empty (fun p mem => (filled p mem).2)
    fun mem => (filled [] (dropLast_subset _ mem)).1 rfl]
  exact filter_eq_self.mpr fun p mem => decide_eq_true (filled p mem).1

theorem walk_below (first : List JSString) (proper : ∀ p ∈ rest, Proper p) :
    (walk false (below first) (rest.map move)).names = first ++ rest := by
  have down : rest.map move = rest.map .down :=
    map_congr_left fun p mem => move_of_proper (proper p mem)
  rw [down, Position.walk_downs]
  rfl

theorem names_intercalate (proper : ∀ p ∈ ps, Proper p ∧ Free p) :
    names ([backslash].intercalate ps) = ps := by
  rw [names, parts_intercalate fun p mem => ⟨(proper p mem).1.filled, (proper p mem).2⟩]
  exact walk_below [] fun p mem => (proper p mem).1

theorem arrival_text (dirs : Directories table) (origin : JSString) (l : Location) :
    arrival dirs [origin, l.text] = l := by
  have device : (splitDevice l.text).device ≠ [] := mt l.hasDevice_text.empty.mp l.some_
  have absolute : isAbsolute l.text = true := by
    rw [isAbsolute, l.text_device]
    rfl
  obtain ⟨device', names'⟩ := arrival_absolute dirs origin device absolute
  rw [l.hasDevice_text.eq] at device'
  rw [l.text_device, names_intercalate l.proper] at names'
  exact Location.ext device' names'

/-! ## Going from one location to another -/

variable {l l' : Location}

/-- How many components two locations have in common -/
def common (table : LowerCase) (l l' : Location) : Nat :=
  samePartsLength (l.lower table) (l'.lower table)

/-- The components that lead from one location to the other -/
def outputParts (table : LowerCase) (l l' : Location) : List JSString :=
  List.replicate (l.parts.length - common table l l') dotdot ++ l'.parts.drop (common table l l')

theorem relative_eq (dirs : Directories table) (origin target : JSString) :
    relative dirs origin target =
      if common table (locate dirs origin) (locate dirs target) = 0 then (locate dirs target).text
      else [backslash].intercalate
        (outputParts table (locate dirs origin) (locate dirs target)) := by
  have parts : ∀ path, resolve dirs [path] = (locate dirs path).text := by
    intro path
    rw [resolve_eq, arrival_singleton]
  have length : ((locate dirs origin).lower table).length = (locate dirs origin).parts.length :=
    length_map ..
  rw [relative]
  simp only [parts, Location.splitOn_text, Location.splitOn_lower, Location.trim_components,
    Location.trim_lower, length]
  rfl

theorem common_eq_zero_iff :
    common table l l' = 0 ↔ (l.lower table).head? ≠ (l'.lower table).head? := by
  obtain ⟨p, ps, eq⟩ := exists_cons_of_ne_nil
    (mt map_eq_nil_iff.mp l.parts_ne_nil : l.lower table ≠ [])
  obtain ⟨p', ps', eq'⟩ := exists_cons_of_ne_nil
    (mt map_eq_nil_iff.mp l'.parts_ne_nil : l'.lower table ≠ [])
  rw [common, eq, eq', samePartsLength]
  by_cases same : p = p'
  · simp [same]
  · simp [same]

section

variable (table : LowerCase) (l l' : Location)

theorem common_le : common table l l' ≤ l.parts.length ∧ common table l l' ≤ l'.parts.length := by
  have le := Posix.samePartsLength_le (l.lower table) (l'.lower table)
  rwa [Location.lower, Location.lower, length_map, length_map] at le

theorem take_common : (l.parts.take (common table l l')).map table.toLowerCase =
    (l'.parts.take (common table l l')).map table.toLowerCase := by
  have same := Posix.take_samePartsLength (l.lower table) (l'.lower table)
  rwa [Location.lower, Location.lower, ← map_take, ← map_take] at same

theorem outputParts_filled : ∀ p ∈ outputParts table l l', p ≠ [] ∧ Free p := by
  intro p mem
  rcases mem_append.mp mem with up | part
  · rw [eq_of_mem_replicate up]
    refine ⟨by decide, fun c mem => ?_⟩
    have both : c = unit '.' := by simpa [dotdot, js] using mem
    rw [both]
    decide
  · exact l'.filled p (mem_of_mem_drop part)

end

/-- Two locations on the same device -/
structure SameDevice (table : LowerCase) (l l' : Location) : Prop where
  isUNC : l.device.isUNC = l'.device.isUNC
  parts : l.device.parts.map table.toLowerCase = l'.device.parts.map table.toLowerCase

/-- The second location is further down, and these are the components on the way. -/
structure Further (table : LowerCase) (l l' : Location) (before : List JSString) (name : JSString)
    (rest : List JSString) : Prop where
  parts : l'.parts = before ++ name :: rest
  lower : before.map table.toLowerCase = l.lower table

/-- The first component on the way looks like a drive. -/
def Mistaken (table : LowerCase) (l l' : Location) : Prop :=
  ∃ before name rest, Further table l l' before name rest ∧ (splitDrive name).isSome = true

theorem SameDevice.length (device : SameDevice table l l') :
    l.device.parts.length = l'.device.parts.length := by
  rw [Location.length_device_parts l.some_, Location.length_device_parts l'.some_, device.isUNC]

theorem SameDevice.le_common (device : SameDevice table l l') :
    l.device.parts.length ≤ common table l l' := by
  have first : l.device.parts.map table.toLowerCase <+: l.lower table := by
    simp [Location.lower, Location.parts]
  have second : l.device.parts.map table.toLowerCase <+: l'.lower table := by
    simp [Location.lower, Location.parts, device.parts]
  have le := Posix.length_le_samePartsLength first second
  rwa [length_map] at le

theorem Location.Alike.sameDevice (alike : Location.Alike table l l') : SameDevice table l l' := by
  have length : l.device.parts.length = l'.device.parts.length := by
    rw [Location.length_device_parts l.some_, Location.length_device_parts l'.some_, alike.isUNC]
  have take : ∀ l : Location, (l.lower table).take l.device.parts.length =
      l.device.parts.map table.toLowerCase := by simp [Location.lower, Location.parts]
  refine ⟨alike.isUNC, ?_⟩
  simp [← take, alike.parts, length]

theorem take_parts (le : l.device.parts.length ≤ k) :
    l.parts.take k = l.device.parts ++ l.names.take (k - l.device.parts.length) := by
  rw [Location.parts, take_append, take_of_length_le le]

theorem drop_parts (le : l.device.parts.length ≤ k) :
    l.parts.drop k = l.names.drop (k - l.device.parts.length) := by
  rw [Location.parts, drop_append, drop_of_length_le le, nil_append]

theorem SameDevice.alike (same : SameDevice table l l') {r : Location}
    (device : r.device = l.device)
    (names : r.names = l.names.take (common table l l' - l.device.parts.length) ++
      l'.names.drop (common table l l' - l.device.parts.length)) : Location.Alike table r l' := by
  have le := same.le_common
  have le' : l'.device.parts.length ≤ common table l l' := same.length ▸ le
  have whole : r.parts = l.parts.take (common table l l') ++ l'.parts.drop (common table l l') := by
    rw [take_parts le, drop_parts le', ← same.length, Location.parts, device, names, append_assoc]
  refine ⟨(congrArg Device.isUNC device).trans same.isUNC, ?_⟩
  rw [Location.lower, whole, map_append, take_common, ← map_append, take_append_drop]
  rfl

theorem SameDevice.walk (same : SameDevice table l l') :
    (Position.walk false (below l.names) ((outputParts table l l').map move)).names =
      l.names.take (common table l l' - l.device.parts.length) ++
        l'.names.drop (common table l l' - l.device.parts.length) := by
  have le := same.le_common
  have ups : l.parts.length - common table l l' =
      l.names.length - (common table l l' - l.device.parts.length) := by
    rw [Location.parts, length_append]
    omega
  have le' := (common_le table l l').1
  rw [Location.parts, length_append] at le'
  rw [outputParts, ups, drop_parts (same.length ▸ le), ← same.length]
  have leads := Posix.walk_relative (q := below l.names)
    (common table l l' - l.device.parts.length) (Nat.sub_le_iff_le_add'.mpr le')
    (l'.names.drop (common table l l' - l.device.parts.length))
    fun name mem => (l'.proper name (mem_of_mem_drop mem)).1
  exact congrArg Position.names leads

theorem splitDevice_intercalate {first : JSString}
    (filled : ∀ p ∈ first :: rest, p ≠ [] ∧ Free p) (plain : (splitDrive first).isSome = false) :
    splitDevice ([backslash].intercalate (first :: rest)) =
      ⟨[], [], [backslash].intercalate (first :: rest)⟩ := by
  obtain ⟨some_, free⟩ := filled first mem_cons_self
  have headed : Headed ([backslash].intercalate (first :: rest)) :=
    headed_intercalate (fun p mem => (filled p mem).2)
      fun mem => (filled [] (dropLast_subset _ mem)).1 rfl
  have drive : splitDrive ([backslash].intercalate (first :: rest)) = none := by
    rw [← isNone_iff_eq_none, ← isSome_eq_false_iff, splitDrive_intercalate free some_]
    exact plain
  rw [splitDevice, drive, splitUNC_of_not_headed headed]
  exact splitSlash_append [] false headed

/-! ## Components that look like a drive -/

theorem dotdot_not_drive : (splitDrive dotdot).isSome = false := by decide

theorem Further.outputParts_eq (further : Further table l l' before name rest) :
    before.length = l.parts.length ∧ common table l l' = l.parts.length ∧
      outputParts table l l' = name :: rest := by
  have length : before.length = l.parts.length := by
    have lengths := congrArg List.length further.lower
    rwa [Location.lower, length_map, length_map] at lengths
  have second : l.lower table <+: l'.lower table := by
    simp [Location.lower.eq_1, further.parts, further.lower]
  have le := Posix.length_le_samePartsLength (prefix_refl (l.lower table)) second
  rw [Location.lower, length_map] at le
  have all : common table l l' = l.parts.length := Nat.le_antisymm (common_le table l l').1 le
  refine ⟨length, all, ?_⟩
  simp [outputParts, all, further.parts, ← length]

theorem further_of_drive
    (eq : outputParts table l l' = name :: rest) (drive : (splitDrive name).isSome = true) :
    Further table l l' (l'.parts.take (common table l l')) name rest := by
  have none_ : l.parts.length - common table l l' = 0 := by
    by_contra some_
    obtain ⟨ups, up⟩ := Nat.exists_eq_succ_of_ne_zero some_
    rw [outputParts, up, replicate_succ, cons_append] at eq
    simp [← (List.cons.inj eq).1, dotdot_not_drive] at drive
  have all : l.parts.take (common table l l') = l.parts :=
    take_of_length_le (Nat.le_of_sub_eq_zero none_)
  have down : l'.parts.drop (common table l l') = name :: rest := by
    rw [← eq, outputParts, none_]
    rfl
  constructor
  · simp [← down]
  rw [← take_common, all]
  rfl

/-- What a component that looks like a drive leads to, from where one stands on that drive, happens
to be the component. -/
structure Accident (dirs : Directories table) (origin : JSString) (l' : Location)
    (before : List JSString) (c : UInt16) (r : JSString) (rest : List JSString) : Prop where
  device : ∃ letter, l'.device = .drive letter ∧
    table.toLowerCase [letter, colon] = table.toLowerCase [c, colon]
  relative : r = [] → rest = []
  names : (walk false (below (standing dirs [c, colon] origin)) [move r]).names.map
    table.toLowerCase = ((before ++ [c :: colon :: r]).drop 1).map table.toLowerCase

theorem intercalate_drive (c : UInt16) (r : JSString) (rest : List JSString) :
    [backslash].intercalate ((c :: colon :: r) :: rest) =
      c :: colon :: [backslash].intercalate (r :: rest) := by
  simp

theorem arrival_mistaken (dirs : Directories table) (origin : JSString)
    (letter : isLetter c = true) (free : Free r) :
    (arrival dirs [origin, [backslash].intercalate ((c :: colon :: r) :: rest)]).device = .drive c ∧
      ((∀ p ∈ rest, Proper p ∧ Free p) →
        (arrival dirs [origin, [backslash].intercalate ((c :: colon :: r) :: rest)]).names =
          if r = [] ∧ rest ≠ [] then rest
          else (walk false (below (standing dirs [c, colon] origin)) [move r]).names ++ rest) := by
  have split := splitDevice_drive letter ([backslash].intercalate (r :: rest))
  have absolute := isAbsolute_drive letter ([backslash].intercalate (r :: rest))
  have device : (splitDevice (c :: colon :: [backslash].intercalate (r :: rest))).device =
      [c, colon] := by
    rw [split, splitSlash_device]
  have some_ : (splitDevice (c :: colon :: [backslash].intercalate (r :: rest))).device ≠ [] := by
    simp [device]
  have read : readDevice [c, colon] = .drive c := rfl
  rw [intercalate_drive]
  by_cases root : r = [] ∧ rest ≠ []
  · obtain ⟨rfl, more⟩ := root
    rw [if_pos ⟨rfl, more⟩]
    have begins : [backslash].intercalate ([] :: rest) =
      backslash :: [backslash].intercalate rest :=
      intercalate_cons backslash [] more
    rw [begins] at split absolute device some_ ⊢
    obtain ⟨device', names'⟩ := arrival_absolute dirs origin some_ absolute
    rw [device, read] at device'
    have tail : (splitSlash [c, colon] (backslash :: [backslash].intercalate rest)).tail =
        [backslash].intercalate rest := rfl
    refine ⟨device', fun proper => ?_⟩
    rw [split, tail, names_intercalate proper] at names'
    exact names'
  rw [if_neg root]
  have headed : Headed ([backslash].intercalate (r :: rest)) := by
    by_cases last : rest = []
    · simpa [last] using free.headed
    rw [intercalate_cons backslash r last]
    exact free.headed_append (fun none_ => root ⟨none_, last⟩) _
  have tail := splitSlash_append [c, colon] false headed
  rw [if_neg Bool.false_ne_true, nil_append] at tail
  obtain ⟨device', names'⟩ := arrival_drive dirs origin some_ (absolute.trans headed)
  rw [device, read] at device'
  rw [device, split, tail] at names'
  refine ⟨device', fun proper => names'.trans ?_⟩
  have there : walk false (below (standing dirs [c, colon] origin)) [move r] =
      below (walk false (below (standing dirs [c, colon] origin)) [move r]).names :=
    congrArg (fun ups => (⟨ups, _⟩ : Position JSString))
      (Position.ups_walk_false (below (standing dirs [c, colon] origin)) [move r])
  by_cases empty : r = []
  · have last : rest = [] := by grind
    subst empty last
    rw [append_nil]
    rfl
  have filled : ∀ p ∈ rest, p ≠ [] ∧ Free p :=
    fun p mem => ⟨(proper p mem).1.filled, (proper p mem).2⟩
  have parts_ : parts ([backslash].intercalate (r :: rest)) = [r] ++ rest :=
    parts_intercalate (forall_mem_cons.mpr ⟨⟨empty, free⟩, filled⟩)
  rw [parts_, map_append, Position.walk_append, map_singleton, there]
  exact walk_below _ fun p mem => (proper p mem).1

theorem Further.same_iff (dirs : Directories table) (origin : JSString) (letter : isLetter c = true)
    (further : Further table l l' before (c :: colon :: r) rest) :
    Location.Alike table
        (arrival dirs [origin, [backslash].intercalate ((c :: colon :: r) :: rest)]) l' ↔
      Accident dirs origin l' before c r rest := by
  have mem : c :: colon :: r ∈ l'.parts := by simp [further.parts]
  have free : Free r := fun d later =>
    (l'.filled _ mem).2 d (mem_cons_of_mem _ (mem_cons_of_mem _ later))
  have met := @arrival_mistaken _ rest _ _ dirs origin letter free
  obtain ⟨device, names⟩ := met
  generalize arrival dirs [origin, [backslash].intercalate ((c :: colon :: r) :: rest)] = l'' at *
  cases device' : l'.device with
  | none => exact absurd device' l'.some_
  | unc =>
    constructor
    · intro alike
      have same := alike.isUNC
      rw [device, device'] at same
      cases same
    intro accident
    obtain ⟨d, other, -⟩ := accident.device
    cases device'.symm.trans other
  | drive d =>
    have some_ : before ≠ [] := by
      rw [← length_pos_iff, further.outputParts_eq.1, length_pos_iff]
      exact l.parts_ne_nil
    obtain ⟨first, before, rfl⟩ := exists_cons_of_ne_nil some_
    have whole := further.parts
    rw [Location.parts, device'] at whole
    obtain ⟨rfl, below_⟩ := List.cons.inj whole
    rw [List.append_eq, nil_append] at below_
    have proper : ∀ p ∈ rest, Proper p ∧ Free p := by
      intro p mem
      refine l'.proper p ?_
      rw [below_]
      exact mem_append_right _ (mem_cons_of_mem _ mem)
    have lower'' : l''.lower table =
        table.toLowerCase [c, colon] :: l''.names.map table.toLowerCase := by
      rw [Location.lower, Location.parts, device]
      rfl
    have lower' : l'.lower table = table.toLowerCase [d, colon] ::
        ((before ++ [c :: colon :: r]).map table.toLowerCase ++ rest.map table.toLowerCase) := by
      rw [Location.lower, Location.parts, device', below_, ← map_append, append_assoc]
      rfl
    replace names := names proper
    constructor
    · intro alike
      have same := alike.parts
      rw [lower'', lower'] at same
      obtain ⟨drive, same⟩ := List.cons.inj same
      by_cases root : r = [] ∧ rest ≠ []
      · rw [if_pos root] at names
        have lengths := congrArg List.length same
        rw [names] at lengths
        simp only [length_map, length_append, length_singleton] at lengths
        omega
      rw [if_neg root] at names
      rw [names, map_append] at same
      refine ⟨⟨d, device', drive.symm⟩, fun none_ => ?_, append_cancel_right same⟩
      by_contra more
      exact root ⟨none_, more⟩
    intro accident
    obtain ⟨d', same, drive⟩ := accident.device
    obtain rfl : d = d' := Device.drive.inj (device'.symm.trans same)
    have root : ¬(r = [] ∧ rest ≠ []) := fun both => both.2 (accident.relative both.1)
    rw [if_neg root] at names
    constructor
    · rw [device, device']
      rfl
    · simp [lower'', lower', names, accident.names, drive]

/-- **When `relative` inverts `resolve`**: on the same device, if the first component on the way
does not look like a drive; if the paths have nothing in common; or by accident. -/
theorem resolve_relative_iff (dirs : Directories table) (origin target : JSString) :
    table.toLowerCase (resolve dirs [origin, relative dirs origin target]) =
        table.toLowerCase (resolve dirs [target]) ↔
      SameDevice table (locate dirs origin) (locate dirs target) ∧
          ¬Mistaken table (locate dirs origin) (locate dirs target) ∨
        ((locate dirs origin).lower table).head? ≠ ((locate dirs target).lower table).head? ∨
        ∃ before c r rest, isLetter c = true ∧
          Further table (locate dirs origin) (locate dirs target) before (c :: colon :: r) rest ∧
            Accident dirs origin (locate dirs target) before c r rest := by
  have here := arrival_singleton dirs origin
  have there := arrival_singleton dirs target
  rw [resolve_eq, resolve_eq, Location.same_iff, there, relative_eq]
  generalize locate dirs origin = l at *
  generalize locate dirs target = l' at *
  by_cases apart : common table l l' = 0
  · rw [if_pos apart, arrival_text]
    exact iff_of_true ⟨rfl, rfl⟩ (.inr (.inl (common_eq_zero_iff.mp apart)))
  rw [if_neg apart]
  rw [common_eq_zero_iff] at apart
  have filled := outputParts_filled table l l'
  have none_further : (∀ name rest, outputParts table l l' = name :: rest →
      (splitDrive name).isSome = false) → ¬Mistaken table l l' := by
    rintro plain ⟨before, name, rest, further, drive⟩
    have plain' := plain name rest further.outputParts_eq.2.2
    simp [drive] at plain'
  have reduce : ∀ l'' : Location, ¬Mistaken table l l' →
      (Location.Alike table l'' l' ↔ SameDevice table l l') →
      (Location.Alike table l'' l' ↔ SameDevice table l l' ∧ ¬Mistaken table l l' ∨
        (l.lower table).head? ≠ (l'.lower table).head? ∨
        ∃ before c r rest, isLetter c = true ∧ Further table l l' before (c :: colon :: r) rest ∧
            Accident dirs origin l' before c r rest) := by
    intro l'' plain iff_
    rw [iff_, and_iff_left plain]
    refine ⟨.inl, ?_⟩
    rintro (same | head | ⟨before, c, r, rest, letter, further, -⟩)
    · exact same
    · exact absurd head apart
    refine absurd ⟨before, _, rest, further, ?_⟩ plain
    rw [splitDrive, if_pos ⟨letter, rfl⟩]
    rfl
  cases eq : outputParts table l l' with
  | nil =>
    have plain := none_further fun name rest some_ => by cases eq.symm.trans some_
    have stays : arrival dirs [origin, [backslash].intercalate []] = l :=
      (arrival_nil dirs origin).trans here
    rw [stays]
    refine reduce l plain ⟨Location.Alike.sameDevice, fun same => same.alike rfl ?_⟩
    have leads := same.walk
    rw [eq] at leads
    exact leads
  | cons name rest =>
    rw [eq] at filled
    by_cases drive : (splitDrive name).isSome = true
    · -- The path is taken for one on a drive.
      have further := further_of_drive eq drive
      obtain ⟨c, r, letter, rfl⟩ := exists_of_splitDrive drive
      rw [further.same_iff dirs origin letter]
      constructor
      · exact fun accident => .inr (.inr ⟨_, c, r, rest, letter, further, accident⟩)
      rintro (⟨-, plain⟩ | head | ⟨before, c', r', rest', letter', further', accident⟩)
      · exact absurd ⟨_, _, rest, further, drive⟩ plain
      · exact absurd head apart
      obtain ⟨same, rfl⟩ := List.cons.inj (eq.symm.trans further'.outputParts_eq.2.2)
      obtain rfl : c = c' := (List.cons.inj same).1
      obtain rfl : r = r' := (List.cons.inj (List.cons.inj same).2).2
      obtain rfl : l'.parts.take (common table l l') = before :=
        append_cancel_right (further.parts.symm.trans further'.parts)
      exact accident
    -- It is relative, and has no device.
    have plain := Bool.eq_false_iff.mpr drive
    refine reduce _ (none_further fun name' rest' eq' => ?_) ?_
    · rw [← (List.cons.inj (eq.symm.trans eq')).1]
      exact plain
    have split := splitDevice_intercalate filled plain
    have some_ : [backslash].intercalate (name :: rest) ≠ [] :=
      intercalate_ne_nil backslash (cons_ne_nil _ _) fun p mem => (filled p mem).1
    have relative : isAbsolute ([backslash].intercalate (name :: rest)) = false := by
      rw [isAbsolute, split]
      rfl
    obtain ⟨device, names⟩ := arrival_relative dirs origin some_
      (congrArg Split.device split) relative
    rw [here] at device names
    rw [split, parts_intercalate filled] at names
    constructor
    · intro alike
      have same := alike.sameDevice
      exact ⟨device ▸ same.isUNC, device ▸ same.parts⟩
    intro same
    have leads := same.walk
    rw [eq] at leads
    exact same.alike device (names.trans leads)

/-! ## Another share -/

/-- `toLowerCase` of a code unit of ASCII -/
def lowerUnit (c : UInt16) : UInt16 := if 65 ≤ c.toNat ∧ c.toNat ≤ 90 then c + 32 else c

theorem lowerUnit_of_isSlash (slash : isSlash c = true) : lowerUnit c = c := by
  rw [isSlash, Bool.or_eq_true, beq_iff_eq, beq_iff_eq] at slash
  rcases slash with rfl | rfl
  · rfl
  · rfl

theorem isSlash_lowerUnit (slash : isSlash (lowerUnit c) = true) : lowerUnit c = c := by
  rw [lowerUnit] at slash ⊢
  split_ifs at slash ⊢ with upper
  · have sum : (c + 32).toNat = c.toNat + 32 := by
      have small : c.toNat + (32 : UInt16).toNat < 2 ^ 16 := by
        change c.toNat + 32 < 65536
        omega
      exact Nat.mod_eq_of_lt small
    rw [isSlash, Bool.or_eq_true, beq_iff_eq, beq_iff_eq] at slash
    rcases slash with same | same
    · have found : c.toNat + 32 = 92 := sum.symm.trans (congrArg UInt16.toNat same)
      omega
    have found : c.toNat + 32 = 47 := sum.symm.trans (congrArg UInt16.toNat same)
    omega
  · rfl

/-- `toLowerCase` of strings of ASCII -/
def asciiLowerCase : LowerCase where
  toLowerCase := List.map lowerUnit
  nil := rfl
  filled some_ := mt map_eq_nil_iff.mp some_
  length_append s t := by rw [map_append, length_append]
  split slash s t := by rw [map_append, map_cons, lowerUnit_of_isSlash slash]
  plain slash s other mem := by
    obtain ⟨d, found, rfl⟩ := List.mem_map.mp mem
    exact other ((isSlash_lowerUnit slash).symm ▸ found)

/-- The root of a drive, and no other directories -/
def rootDirectory : Directories asciiLowerCase where
  cwd := js "C:\\"
  env _ := none
  cwd_device := by decide
  cwd_absolute := by decide
  env_drive found := by cases found

/-- A path does not lead to another share of the same server. -/
theorem resolve_relative_share : ¬∀ origin target, asciiLowerCase.toLowerCase
      (resolve rootDirectory [origin, relative rootDirectory origin target]) =
    asciiLowerCase.toLowerCase (resolve rootDirectory [target]) := by
  intro claim
  have other := claim (js "\\\\s\\h\\a") (js "\\\\s\\g\\b")
  exact absurd other (by decide)

end Win32

end IoJs.Path
