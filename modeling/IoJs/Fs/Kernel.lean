import IoJs.Fs.Links
import IoJs.Library.Meaning

/-!
# What the kernel resolves

A tree of directories, files and symbolic links. The kernel resolves a path component by component
from the root: a link is followed where it is met, and `..` is the parent of the directory that this
has come to. Where links lead in circles there is no end, and nothing is resolved (`Tree.Resolves`).
-/

namespace IoJs.Fs

open IoJs.Stream IoJs.Library IoJs.Path IoJs.Path.Posix List
open IoJs.RegExp (isLineTerminator js)

variable {Error : Type}

inductive Node where
  | directory
  | file
  | link (target : JSString)
  deriving DecidableEq

def Node.isLink : Node → Bool
  | .link _ => true
  | _ => false

/-- What there is under the names from the root on -/
structure Tree where
  node : List JSString → Option Node
  root : node [] = some .directory
  parent : ∀ ⦃path name⦄, node (path ++ [name]) ≠ none → node path = some .directory
  proper : ∀ ⦃path⦄, node path ≠ none → ProperNames path

inductive Failure where
  | missing
  | notDirectory
  deriving DecidableEq

namespace Tree

/-- What the kernel does with a name that is found -/
def enter (here : List JSString) (name : JSString) :
    Option Node → Except Failure (List JSString × List JSString)
  | none => .error .missing
  | some .directory => .ok (here ++ [name], [])
  | some .file => .ok (here ++ [name], [])
  | some (.link target) =>
    if target = [] then .error .missing
    else .ok (if isAbsolute target then [] else here, target.splitOn slash)

variable (t : Tree)

/-- One component -/
def step (here : List JSString) (name : JSString) :
    Except Failure (List JSString × List JSString) :=
  if t.node here = some .directory then
    match move name with
    | .stay => .ok (here, [])
    | .up => .ok (here.dropLast, [])
    | .down name => enter here name (t.node (here ++ [name]))
  else .error .notDirectory

/-- The components from the root on lead to a directory or a file. -/
def Resolves (names real : List JSString) : Prop := Returns (advance t.step) ([], names) (.ok real)

/-- There is something that is no link, and so are the directories before it. -/
def Real (path : List JSString) : Prop := t.node path = some .directory ∨ t.node path = some .file

variable {t} {path names real : List JSString} {name : JSString}

/-- In a directory, a name is looked up. -/
theorem step_down (directory : t.node path = some .directory) (proper : Proper name) :
    t.step path name = enter path name (t.node (path ++ [name])) := by
  rw [step, if_pos directory, move_of_proper proper]

theorem Real.exists_node (is_real : t.Real path) :
    ∃ node, t.node path = some node ∧ node.isLink = false := by
  rcases is_real with found | found
  · exact ⟨_, found, rfl⟩
  · exact ⟨_, found, rfl⟩

theorem Real.proper (is_real : t.Real path) : ProperNames path := by
  obtain ⟨node, found, -⟩ := is_real.exists_node
  refine t.proper ?_
  simp [found]

theorem Real.parent (is_real : t.Real (path ++ [name])) : t.node path = some .directory := by
  obtain ⟨node, found, -⟩ := is_real.exists_node
  have some_ : t.node (path ++ [name]) ≠ none := by simp [found]
  exact t.parent some_

/-- On the way to a real path there is no link to follow. -/
theorem step_real (is_real : t.Real (path ++ [name])) :
    t.step path name = .ok (path ++ [name], []) := by
  have proper := (is_real.proper name (mem_append_right _ mem_cons_self)).1
  rw [step_down is_real.parent proper]
  rcases is_real with found | found
  · rw [found]
    rfl
  rw [found]
  rfl

theorem Real.walked (is_real : t.Real path) (rest : List JSString) :
    after (advance t.step) path.length ([], path ++ rest) = .inl (path, rest) := by
  induction path using List.reverseRecOn generalizing rest with
  | nil => rfl
  | append_singleton path name ih =>
    have before := ih (.inl is_real.parent) (name :: rest)
    simp [after_add_inl before, after_one, advance_ok (step_real is_real)]

theorem Real.resolves (is_real : t.Real path) : t.Resolves path path := by
  have walked := is_real.walked []
  rw [append_nil] at walked
  exact (returns_iff_of_after walked).mpr (.done rfl)

/-- From a real path, each step leads to a real path. -/
theorem Real.step {rest : List JSString} {path' : List JSString} (is_real : t.Real path)
    (read : t.step path name = .ok (path', rest)) : t.Real path' := by
  rw [Tree.step] at read
  split_ifs at read with directory
  cases moved : move name with
  | stay => grind
  | up =>
    rw [moved] at read
    obtain ⟨rfl, -⟩ := Prod.mk.inj (Except.ok.inj read)
    rcases eq_nil_or_concat' path with rfl | ⟨front, last, rfl⟩
    · exact is_real
    · simpa using .inl is_real.parent
  | down name =>
    rw [moved] at read
    dsimp only at read
    cases found : t.node (path ++ [name]) with
    | none =>
      rw [found] at read
      cases read
    | some node =>
      rw [found] at read
      cases node with
      | directory =>
        obtain ⟨rfl, -⟩ := Prod.mk.inj (Except.ok.inj read)
        exact .inl found
      | file =>
        obtain ⟨rfl, -⟩ := Prod.mk.inj (Except.ok.inj read)
        exact .inr found
      | link =>
        rw [enter] at read
        split_ifs at read with empty absolute
        · obtain ⟨rfl, -⟩ := Prod.mk.inj (Except.ok.inj read)
          exact .inl t.root
        · grind

namespace Resolves

section

variable (resolves : t.Resolves names real)
include resolves

theorem is_real : t.Real real :=
  invariant_of_returns t.Real (fun _ => True)
    (fun here _ read => ⟨here.step read, fun _ _ => trivial⟩) resolves (.inl t.root)
    fun _ _ => trivial

theorem unique {real' : List JSString} (resolves' : t.Resolves names real') : real = real' :=
  Except.ok.inj (Returns.unique resolves resolves')

theorem append (more real' : List JSString) :
    t.Resolves (names ++ more) real' ↔ t.Resolves (real ++ more) real' :=
  (returns_append resolves more _).trans
    (returns_iff_of_after (resolves.is_real.walked more)).symm

end

end Resolves

theorem resolves_snoc_iff (is_real : t.Real path) (real : List JSString) :
    t.Resolves (path ++ [name]) real ↔ Returns (advance t.step) (path, [name]) (.ok real) :=
  returns_iff_of_after (is_real.walked [name])

theorem not_resolves_snoc {failure : Failure} (is_real : t.Real path)
    (failed : t.step path name = .error failure) (real : List JSString) :
    ¬t.Resolves (path ++ [name]) real := by
  rw [resolves_snoc_iff is_real]
  intro returns
  cases returns.unique (.done (advance_error failed []))

end Tree

/-! ## Texts without line terminators -/

/-- `.` matches each character. -/
def Plain (text : JSString) : Prop := text.any isLineTerminator = false

/-- A name that `nextPartRe` finds -/
def ValidName (name : JSString) : Prop := (Proper name ∧ slash ∉ name) ∧ Plain name

variable {t : Tree} {cwd : JSString} {fs : FileSystem Error}
  {names path dir link real : List JSString}
  {name target text : JSString}

/-! ## What `fs` tells about a tree -/

/-- The path of some names -/
def textOf (names : List JSString) : JSString := slash :: [slash].intercalate names

theorem resolvedTo_textOf (proper : ProperNames names) : ResolvedTo (textOf names) names := by
  refine ⟨?_, rfl, proper⟩
  rw [assemble, writeTail, textOf]
  simp

theorem basePath_eq_textOf (filled : names ≠ []) (plain : ∀ name ∈ names, Plain name) :
    basePath names = textOf names := by
  have shows : names.map shown = names :=
    (map_congr_left fun name mem => shown_of_plain (plain name mem)).trans (List.map_id names)
  rw [basePath_eq filled, shows, textOf]

/-- What the functions of `fs` tell, behind real directories -/
structure Mounted (t : Tree) (fs : FileSystem Error) : Prop where
  missing : ∀ ⦃path name⦄, t.Real path → ProperNames (path ++ [name]) →
    t.node (path ++ [name]) = none → ∃ error, fs.lstat (textOf (path ++ [name])) = .error error
  present : ∀ ⦃path node⦄, t.node path = some node →
    ∃ stat, fs.lstat (textOf path) = .ok stat ∧ stat.symbolicLink = node.isLink
  /-- A link that leads to nothing, or in circles, is an error. -/
  leads : ∀ ⦃path target⦄, t.node path = some (.link target) →
    ((∃ existing, fs.stat (textOf path) = .ok existing) ↔ ∃ real, t.Resolves path real)
  target : ∀ ⦃path target⦄, t.node path = some (.link target) →
    fs.readlink (textOf path) = .ok target
  told : LinksTold fs

/-- A link that leads to something, and its target as `realpathSync` joins it to the directory -/
def Tree.Joins (t : Tree) (cwd : JSString) (link names : List JSString) : Prop :=
  ∃ dir name target, link = dir ++ [name] ∧ (∀ name ∈ link, ValidName name) ∧
    t.node link = some (.link target) ∧ (∃ real, t.Resolves link real) ∧
      names = namesOf (resolve cwd [directory dir, target])

namespace Mounted

variable (mounted : Mounted t fs)

include mounted

theorem look_missing (cwd : JSString) (is_real : t.Real path)
    (valid : ∀ name' ∈ path ++ [name], ValidName name') (missing : t.node (path ++ [name]) = none) :
    ∃ error, look cwd fs (path ++ [name]) = .missing error := by
  obtain ⟨error, failed⟩ := mounted.missing is_real (fun name' mem => (valid name' mem).1) missing
  refine ⟨error, ?_⟩
  rw [look, basePath_eq_textOf (by simp) fun name' mem => (valid name' mem).2, lookAt, failed]

theorem look_hard (filled : path ≠ []) (valid : ∀ name ∈ path, ValidName name)
    (is_real : t.Real path) : look cwd fs path = .hard := by
  obtain ⟨node, found, hard⟩ := is_real.exists_node
  obtain ⟨stat, told, link⟩ := mounted.present found
  rw [look, basePath_eq_textOf filled fun name mem => (valid name mem).2]
  exact Tables.lookAt_hard told (link.trans hard)

theorem look_link (cwd : JSString) (valid : ∀ name' ∈ path ++ [name], ValidName name')
    (found : t.node (path ++ [name]) = some (.link target)) :
    ((∃ real, t.Resolves (path ++ [name]) real) ∧
      look cwd fs (path ++ [name]) = .link (namesOf (resolve cwd [directory path, target]))) ∨
    ((¬∃ real, t.Resolves (path ++ [name]) real) ∧
      ∃ error, look cwd fs (path ++ [name]) = .missing error) := by
  obtain ⟨stat, told, link⟩ := mounted.present found
  have linkIs : stat.symbolicLink = true := link
  rw [look, basePath_eq_textOf (by simp) fun name' mem => (valid name' mem).2, dropLast_concat,
    lookAt, told]
  dsimp only
  rw [if_pos linkIs, mounted.target found]
  cases leads : fs.stat (textOf (path ++ [name])) with
  | ok => exact .inl ⟨(mounted.leads found).mp ⟨_, leads⟩, rfl⟩
  | error error =>
    refine .inr ⟨fun resolves => ?_, error, rfl⟩
    obtain ⟨existing, ok⟩ := (mounted.leads found).mpr resolves
    simp [leads] at ok

theorem look_cases (cwd : JSString) (is_real : t.Real path)
    (valid : ∀ name' ∈ path ++ [name], ValidName name') :
    t.Real (path ++ [name]) ∧ look cwd fs (path ++ [name]) = .hard ∨
    (∃ target, t.node (path ++ [name]) = some (.link target) ∧
      (∃ real, t.Resolves (path ++ [name]) real) ∧
        look cwd fs (path ++ [name]) = .link (namesOf (resolve cwd [directory path, target]))) ∨
    (¬∃ real, t.Resolves (path ++ [name]) real) ∧
      ∃ error, look cwd fs (path ++ [name]) = .missing error := by
  have proper := (valid name (mem_append_right _ mem_cons_self)).1.1
  cases found : t.node (path ++ [name]) with
  | none =>
    refine .inr (.inr ⟨?_, mounted.look_missing cwd is_real valid found⟩)
    rintro ⟨real, resolves⟩
    by_cases directory : t.node path = some .directory
    · have failed : t.step path name = .error .missing := by
        rw [Tree.step_down directory proper, found]
        rfl
      exact Tree.not_resolves_snoc is_real failed real resolves
    have failed : t.step path name = .error .notDirectory := by rw [Tree.step, if_neg directory]
    exact Tree.not_resolves_snoc is_real failed real resolves
  | some node =>
    cases node with
    | directory => exact .inl ⟨.inl found, mounted.look_hard (by simp) valid (.inl found)⟩
    | file => exact .inl ⟨.inr found, mounted.look_hard (by simp) valid (.inr found)⟩
    | link target =>
      rcases mounted.look_link cwd valid found with ⟨resolves, link⟩ | dead
      · exact .inr (.inl ⟨target, rfl, resolves, link⟩)
      · exact .inr (.inr dead)

theorem hard_iff (valid : ∀ name ∈ names, ValidName name) :
    Place.Hard (look cwd fs) names ↔ t.Real names := by
  induction names using List.reverseRecOn with
  | nil => exact iff_of_true Place.hard_nil (.inl t.root)
  | append_singleton path name ih =>
    have before := ih fun name' mem => valid name' (mem_append_left _ mem)
    rw [Place.hard_snoc]
    constructor
    · rintro ⟨hard, here⟩
      rcases mounted.look_cases cwd (before.mp hard) valid with
        ⟨is_real, -⟩ | ⟨target, -, -, link⟩ | ⟨-, error, missing⟩
      · exact is_real
      · simp [link] at here
      · simp [missing] at here
    exact fun is_real => ⟨before.mpr (.inl is_real.parent),
      mounted.look_hard (by simp) valid is_real⟩

theorem meaning : Place.Meaning (look cwd fs) ValidName t.Resolves where
  unique _ _ _ resolves resolves' := resolves.unique resolves'
  hard _ _ resolves valid := (mounted.hard_iff valid).mpr resolves.is_real
  self _ valid hard := ((mounted.hard_iff valid).mp hard).resolves
  append _ _ resolves b r := resolves.append b r
  fails a nothing b := fun ⟨r, resolves⟩ => nothing (exists_returns_of_append resolves)
  missing done name error validDone validName hard missing := by
    have is_real := (mounted.hard_iff validDone).mp hard
    have valid : ∀ name' ∈ done ++ [name], ValidName name' := by grind
    rintro ⟨r, resolves⟩
    rcases mounted.look_cases cwd is_real valid with
      ⟨-, hard⟩ | ⟨target, -, -, link⟩ | ⟨nothing, -⟩
    · simp [hard] at missing
    · simp [link] at missing
    · exact nothing ⟨r, resolves⟩

theorem link_iff : Place.Link (look cwd fs) ValidName link names ↔ t.Joins cwd link names := by
  constructor
  · rintro ⟨⟨done, name, rfl, hard⟩, valid, leads⟩
    have is_real : t.Real done :=
      (mounted.hard_iff fun name mem => valid name (mem_append_left _ mem)).mp hard
    rcases mounted.look_cases cwd is_real valid with
      ⟨-, here⟩ | ⟨target, found, resolves, link⟩ | ⟨-, error, missing⟩
    · simp [here] at leads
    · rw [link] at leads
      exact ⟨done, name, target, rfl, valid, found, resolves, (Entry.link.inj leads).symm⟩
    · simp [missing] at leads
  rintro ⟨dir, name, target, rfl, valid, found, resolves, rfl⟩
  have some_ : t.node (dir ++ [name]) ≠ none := by simp [found]
  have is_real : t.Real dir := .inl (t.parent some_)
  refine ⟨⟨dir, name, rfl, ?_⟩, valid, ?_⟩
  · exact (mounted.hard_iff fun name mem => valid name (mem_append_left _ mem)).mpr is_real
  rcases mounted.look_link cwd valid found with ⟨-, link⟩ | ⟨nothing, -⟩
  · exact link
  · exact absurd resolves nothing

end Mounted

theorem Tree.Joins.proper (absolute : isAbsolute cwd = true) (joins : t.Joins cwd link names) :
    ProperNames names := by
  obtain ⟨dir, name, target, rfl, -, -, -, rfl⟩ := joins
  exact (resolvedTo_resolve absolute [directory dir, target]).proper

end IoJs.Fs
