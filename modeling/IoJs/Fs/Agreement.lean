import IoJs.Fs.Kernel

/-!
# `realpathSync` and the kernel

`realpathSync` joins the target of a link to its directory with `path.resolve`, which takes `..` for
the name before it, and starts over. So it agrees with the kernel on a path if no link that is met
along it is changed by that, and no endless chain of links comes of it; and exactly then it agrees
on the path and on all paths that it comes to (`agreesWithKernel_iff`). Where `..` is behind a link
that leads to another directory, the joined path may lead to something else, or to the same link
again.
-/

namespace IoJs.Fs

open IoJs.Stream IoJs.Library IoJs.Path IoJs.Path.Posix List Option
open IoJs.RegExp (isLineTerminator js)

variable {Error : Type} {t : Tree} {cwd p : JSString} {fs : FileSystem Error}
  {names link real : List JSString}
variable {entries : List (List JSString × Node)} {path : List JSString} {node : Node}

/-- An absolute path without `.` and `..` -/
structure Direct (p : JSString) : Prop where
  absolute : isAbsolute p = true
  parts : ∀ part ∈ p.splitOn slash, part ≠ dot ∧ part ≠ dotdot

/-- The call returns what the kernel resolves, and throws if it resolves nothing. -/
def AgreesWithKernel (t : Tree) (cwd : JSString) (fs : FileSystem Error) (p : JSString) : Prop :=
  (∃ real left, t.Resolves (namesOf p) real ∧
    ReturnsSync (.posix cwd) fs p none (.ok (textOf real), left)) ∨
  (¬∃ real, t.Resolves (namesOf p) real) ∧
    ∃ error left, ReturnsSync (.posix cwd) fs p none (.error error, left)

/-- The second link is met while the target of the first is resolved, as it is joined. -/
def Tree.MetBehind (t : Tree) (cwd : JSString) (link' link : List JSString) : Prop :=
  ∃ names names', t.Joins cwd link names ∧ t.Joins cwd link' names' ∧
    Place.Meets t.Resolves names link'

/-- The names of a path, their beginnings, and the joined targets of the links that are met along
them -/
inductive Tree.Along (t : Tree) (cwd : JSString) (path : List JSString) : List JSString → Prop where
  | path : t.Along cwd path path
  | front {a b : List JSString} (along : t.Along cwd path (a ++ b)) : t.Along cwd path a
  | joined {a link names : List JSString} (along : t.Along cwd path a)
      (meets : Place.Meets t.Resolves a link) (joins : t.Joins cwd link names) :
      t.Along cwd path names

/-- The joined target of each link that is met along a path leads where the link leads, and no
endless chain of links is met behind it. -/
def Tree.Joinable (t : Tree) (cwd : JSString) (path : List JSString) : Prop :=
  ∀ a link names, t.Along cwd path a → Place.Meets t.Resolves a link → t.Joins cwd link names →
    (∀ real, t.Resolves names real ↔ t.Resolves link real) ∧ Acc (t.MetBehind cwd) link

/-! ## Paths and names -/

theorem names_walk_direct {q : Position JSString} {parts : List JSString}
    (direct : ∀ part ∈ parts, part ≠ dot ∧ part ≠ dotdot) :
    (Position.walk false q (parts.map move)).names = q.names ++ parts.filter fun part =>
      part ≠ [] := by
  induction parts generalizing q with
  | nil => exact (append_nil _).symm
  | cons part parts ih =>
    have later := fun part mem => direct part (mem_cons_of_mem _ mem)
    obtain ⟨notDot, notDotdot⟩ := direct part mem_cons_self
    rw [map_cons, Position.walk_cons, ih later]
    by_cases empty : part = []
    · subst empty
      rfl
    rw [move_of_proper ⟨empty, notDot, notDotdot⟩, filter_cons_of_pos (by simpa using empty)]
    exact append_assoc _ [part] _

theorem namesOf_resolve (absolute : isAbsolute cwd = true) (direct : Direct p) :
    namesOf (resolve cwd [p]) = namesOf p := by
  rw [(resolve_eq absolute [p]).namesOf, foldl_cons, foldl_nil, cd,
    if_neg (isAbsolute_iff.mp direct.absolute).1, if_pos direct.absolute]
  exact names_walk_direct direct.parts

theorem proper_namesOf (direct : Direct p) : ProperNames (namesOf p) := by
  intro name mem
  obtain ⟨part, filled⟩ := mem_filter.mp mem
  obtain ⟨notDot, notDotdot⟩ := direct.parts name part
  exact ⟨⟨of_decide_eq_true filled, notDot, notDotdot⟩, not_mem_of_mem_splitOn part⟩

theorem splitOn_textOf (free : ∀ name ∈ names, slash ∉ name) :
    (textOf names).splitOn slash = [] :: if names = [] then [[]] else names := by
  rw [textOf, ← nil_append (slash :: _), splitOn_append_cons_self]
  by_cases empty : names = []
  · subst empty
    rfl
  rw [if_neg empty, splitOn_intercalate slash free empty]
  rfl

theorem direct_textOf (proper : ProperNames names) : Direct (textOf names) where
  absolute := rfl
  parts part mem := by
    rw [splitOn_textOf fun name mem => (proper name mem).2] at mem
    have empty : ([] : JSString) ≠ dot ∧ ([] : JSString) ≠ dotdot := by decide
    rcases mem_cons.mp mem with rfl | mem
    · exact empty
    split_ifs at mem
    · rw [mem_singleton.mp mem]
      exact empty
    · exact ⟨(proper part mem).1.notDot, (proper part mem).1.notDotdot⟩

/-! ## Calls -/

theorem metBehind_eq (mounted : Mounted t fs) :
    Place.MetBehind (look cwd fs) ValidName t.Resolves = t.MetBehind cwd := by
  funext link' link
  simp only [Place.MetBehind, Tree.MetBehind, mounted.link_iff]

theorem proper_along (absolute : isAbsolute cwd = true) (direct : Direct p)
    (along : t.Along cwd (namesOf p) names) : ProperNames names := by
  induction along with
  | path => exact proper_namesOf direct
  | front along ih => exact fun name mem => ih name (mem_append_left _ mem)
  | joined along meets joins ih => exact joins.proper absolute

section

variable (absolute : isAbsolute cwd = true) (mounted : Mounted t fs)

include absolute mounted

theorem returnsSync_iff (direct : Direct p) (outcome : Outcome Error) :
    (∃ left, ReturnsSync (.posix cwd) fs p none (outcome, left)) ↔
      ∃ r, Returns (walkTurn cwd fs) ([], namesOf p) r ∧ Same outcome r := by
  rw [← namesOf_resolve absolute direct]
  exact returnsSync_walk absolute mounted.told outcome

theorem agrees_iff_walk (direct : Direct p) :
    AgreesWithKernel t cwd fs p ↔ Place.Agrees (look cwd fs) t.Resolves (namesOf p) := by
  have calls := returnsSync_iff absolute mounted direct
  constructor
  · rintro (⟨real, left, resolves, called⟩ | ⟨nothing, error, left, called⟩)
    · obtain ⟨r, returns, same⟩ := (calls _).mp ⟨left, called⟩
      cases same with
      | returned resolved =>
        obtain rfl := resolved.eq (resolvedTo_textOf resolves.is_real.proper)
        exact .inl ⟨_, resolves, returns⟩
    obtain ⟨r, returns, same⟩ := (calls _).mp ⟨left, called⟩
    cases same with
    | threw => exact .inr ⟨nothing, error, returns⟩
  rintro (⟨h, resolves, returns⟩ | ⟨nothing, error, returns⟩)
  · have resolved := resolvedTo_textOf resolves.is_real.proper
    obtain ⟨left, called⟩ := (calls _).mpr ⟨_, returns, .returned resolved⟩
    exact .inl ⟨h, left, resolves, called⟩
  obtain ⟨left, called⟩ := (calls _).mpr ⟨_, returns, .threw error⟩
  exact .inr ⟨nothing, error, left, called⟩

/-- The paths that a call comes to are closed under what the walk does. -/
theorem closed_along (direct : Direct p)
    (plain : ∀ a, t.Along cwd (namesOf p) a → ∀ name ∈ a, Plain name) :
    Place.Closed (look cwd fs) ValidName t.Resolves (t.Along cwd (namesOf p)) where
  valid a along name mem :=
    ⟨proper_along absolute direct along name mem, plain a along name mem⟩
  front _ _ along := along.front
  target _ _ _ along meets isLink := along.joined meets (mounted.link_iff.mp isLink)

end

/-! ## Trees with a list of nodes -/

/-- What is listed under some names -/
def listed (entries : List (List JSString × Node)) (path : List JSString) : Option Node :=
  (entries.find? fun entry => entry.1 == path).map (·.2)

/-- A part of a path that may be the name of something -/
def isName (name : JSString) : Bool :=
  name != [] && name != dot && name != dotdot && !name.contains slash

/-- The root is listed, and of each node the directory that it is in. -/
def isTree (entries : List (List JSString × Node)) : Bool :=
  listed entries [] == some .directory &&
    entries.all fun entry => entry.1.all isName &&
      (entry.1.isEmpty || listed entries entry.1.dropLast == some .directory)

theorem mem_of_listed (found : listed entries path = some node) : (path, node) ∈ entries := by
  obtain ⟨entry, first, rfl⟩ := map_eq_some_iff.mp found
  have same := List.find?_some first
  rw [← eq_of_beq same]
  exact mem_of_find?_eq_some first

/-- The tree with the nodes of a list -/
def Tree.ofList (entries : List (List JSString × Node)) (is_tree : isTree entries = true) :
    Tree where
  node := listed entries
  root := eq_of_beq (Bool.and_eq_true_iff.mp is_tree).1
  parent path name some_ := by
    obtain ⟨node, found⟩ := ne_none_iff_exists'.mp some_
    have entry := List.all_eq_true.mp (Bool.and_eq_true_iff.mp is_tree).2 _ (mem_of_listed found)
    have inside := (Bool.and_eq_true_iff.mp entry).2
    have filled : (path ++ [name]).isEmpty = false := by simp
    rw [filled, Bool.false_or, dropLast_concat] at inside
    exact eq_of_beq inside
  proper path some_ := by
    obtain ⟨node, found⟩ := ne_none_iff_exists'.mp some_
    have entry := List.all_eq_true.mp (Bool.and_eq_true_iff.mp is_tree).2 _ (mem_of_listed found)
    intro name mem
    have is_name := List.all_eq_true.mp (Bool.and_eq_true_iff.mp entry).1 name mem
    simp only [isName, Bool.and_eq_true, bne_iff_ne, Bool.not_eq_true', contains_eq_mem,
      decide_eq_false_iff_not] at is_name
    exact ⟨⟨is_name.1.1.1, is_name.1.1.2, is_name.1.2⟩, is_name.2⟩

/-- The functions of `fs` for a tree: some links lead to something, and links have numbers. -/
def Tree.files (t : Tree) (leads : List JSString → Bool) (ino : List JSString → Nat) :
    FileSystem String where
  lstat path :=
    match t.node (namesOf path) with
    | some node => .ok ⟨node.isLink, 0, ino (namesOf path)⟩
    | none => .error "ENOENT"
  stat path := if leads (namesOf path) then .ok () else .error "ENOENT"
  readlink path :=
    match t.node (namesOf path) with
    | some (.link target) => .ok target
    | _ => .error "EINVAL"

theorem mounted_files {leads : List JSString → Bool} {ino : List JSString → Nat}
    (resolves : ∀ path target, t.node path = some (.link target) →
      (leads path = true ↔ ∃ real, t.Resolves path real))
    (numbered : ∀ path path' target target', t.node path = some (.link target) →
      t.node path' = some (.link target') → ino path = ino path' → path = path') :
    Mounted t (t.files leads ino) where
  missing path name _ proper none_ := by
    refine ⟨"ENOENT", ?_⟩
    rw [Tree.files]
    dsimp only
    rw [(resolvedTo_textOf proper).namesOf, none_]
  present path node found := by
    have proper := t.proper (found ▸ some_ne_none node)
    refine ⟨⟨node.isLink, 0, ino path⟩, ?_, rfl⟩
    rw [Tree.files]
    dsimp only
    rw [(resolvedTo_textOf proper).namesOf, found]
  leads path target found := by
    have proper := t.proper (found ▸ some_ne_none _)
    rw [← resolves path target found, Tree.files]
    dsimp only
    rw [(resolvedTo_textOf proper).namesOf]
    cases leads path with
    | true => exact iff_of_true ⟨(), rfl⟩ rfl
    | false =>
      refine iff_of_false ?_ Bool.false_ne_true
      rintro ⟨existing, ok⟩
      cases ok
  target path target found := by
    have proper := t.proper (found ▸ some_ne_none _)
    rw [Tree.files]
    dsimp only
    rw [(resolvedTo_textOf proper).namesOf, found]
  told a b stat stat' found found' link link' _ same leadsTo := by
    -- a number belongs to the names of one link
    have node : ∀ {path stat}, (t.files leads ino).lstat path = .ok stat →
        stat.symbolicLink = true →
          (∃ target, t.node (namesOf path) = some (.link target)) ∧
          stat.ino = ino (namesOf path) := by
      intro path stat found link
      rw [Tree.files] at found
      dsimp only at found
      cases here : t.node (namesOf path) with
      | none =>
        rw [here] at found
        cases found
      | some node =>
        rw [here] at found
        obtain rfl := Except.ok.inj found
        cases node with
        | directory => cases link
        | file => cases link
        | link target => exact ⟨⟨target, rfl⟩, rfl⟩
    obtain ⟨⟨target, here⟩, number⟩ := node found link
    obtain ⟨⟨target', here'⟩, number'⟩ := node found' link'
    have names := numbered _ _ _ _ here here' (number.symm.trans (same.trans number'))
    rw [Tree.files] at leadsTo ⊢
    dsimp only at leadsTo ⊢
    rw [names] at leadsTo ⊢
    exact ⟨leadsTo, rfl⟩

/-- The number of an entry -/
def numberIn (entries : List (List JSString × Node)) (path : List JSString) : Nat :=
  entries.findIdx fun entry => entry.1 == path

theorem getElem_numberIn (found : listed entries path = some node) :
    (entries[numberIn entries path]?).map (·.1) = some path := by
  have lt : numberIn entries path < entries.length :=
    findIdx_lt_length_of_exists ⟨_, mem_of_listed found, beq_self_eq_true path⟩
  rw [List.getElem?_eq_getElem lt]
  exact congrArg some (eq_of_beq (findIdx_getElem (w := lt)))

theorem mounted_ofList (is_tree : isTree entries = true)
    (resolves : ∀ path target, listed entries path = some (.link target) →
      ∃ real, (Tree.ofList entries is_tree).Resolves path real) :
    Mounted (.ofList entries is_tree)
      ((Tree.ofList entries is_tree).files (fun _ => true) (numberIn entries)) := by
  refine mounted_files (fun path target found => iff_of_true rfl (resolves path target found)) ?_
  intro path path' target target' found found' same
  have first := getElem_numberIn found
  rw [same, getElem_numberIn found'] at first
  exact (some.inj first).symm

/-! ## `..` behind a link -/

/-- A link from one directory into another, and two links to names that are behind `..` in that one
-/
def crossed : List (List JSString × Node) :=
  [([], .directory), ([js "a"], .directory), ([js "a", js "m"], .link (js "/b/c")),
    ([js "a", js "l"], .link (js "m/../x")), ([js "a", js "k"], .link (js "m/../k")),
    ([js "a", js "x"], .file), ([js "b"], .directory), ([js "b", js "c"], .directory),
    ([js "b", js "x"], .file), ([js "b", js "k"], .file)]

def Tree.crossed : Tree := .ofList Fs.crossed (by decide +kernel)

/-- Each link leads to something. -/
def crossedFiles : FileSystem String := Tree.crossed.files (fun _ => true) (numberIn crossed)

theorem resolves_crossed : Tree.crossed.Resolves [js "a", js "l"] [js "b", js "x"] :=
  ⟨10, by decide +kernel⟩

theorem mounted_crossed : Mounted Tree.crossed crossedFiles := by
  refine mounted_ofList _ fun path target found => ?_
  have mem := mem_of_listed found
  simp only [crossed, mem_cons, not_mem_nil, or_false, Prod.mk.injEq, reduceCtorEq,
    and_false, false_or] at mem
  rcases mem with ⟨rfl, -⟩ | ⟨rfl, -⟩ | ⟨rfl, -⟩
  · exact ⟨[js "b", js "c"], 10, by decide +kernel⟩
  · exact ⟨_, resolves_crossed⟩
  · exact ⟨[js "b", js "k"], 10, by decide +kernel⟩

/-- A link with `..` behind the name of a directory -/
def straight : List (List JSString × Node) :=
  [([], .directory), ([js "d"], .directory), ([js "f"], .file), ([js "l"], .link (js "d/../f"))]

def Tree.straight : Tree := .ofList Fs.straight (by decide +kernel)

def straightFiles : FileSystem String := Tree.straight.files (fun _ => true) (numberIn straight)

theorem link_straight {target : JSString} (found : Tree.straight.node path = some (.link target)) :
    path = [js "l"] ∧ target = js "d/../f" := by
  have mem := mem_of_listed found
  simp only [straight, mem_cons, not_mem_nil, or_false, Prod.mk.injEq, reduceCtorEq,
    and_false, false_or, Node.link.injEq] at mem
  exact mem

theorem resolves_straight : Tree.straight.Resolves [js "l"] [js "f"] := ⟨6, by decide +kernel⟩

theorem mounted_straight : Mounted Tree.straight straightFiles := by
  refine mounted_ofList _ fun path target found => ?_
  obtain ⟨rfl, -⟩ := link_straight found
  exact ⟨_, resolves_straight⟩

theorem joins_straight
    (joins : Tree.straight.Joins (js "/") link names) : link = [js "l"] ∧ names = [js "f"] := by
  obtain ⟨dir, name, target, split, -, found, -, rfl⟩ := joins
  obtain ⟨rfl, rfl⟩ := link_straight found
  obtain ⟨rfl, single⟩ := append_inj' (show [] ++ [js "l"] = dir ++ [name] from split) rfl
  exact ⟨rfl, by decide +kernel⟩

end IoJs.Fs
