import IoJs.Fs.Interleaving
import IoJs.Library.Rewriting

/-!
# The walk of `realpathSync`, name by name

On POSIX the walk of a call goes down the names of `p` (`At`). Of a name with a line terminator,
`nextPartRe` finds what is behind the last one, since `.` does not match it (`shown`).
-/

namespace IoJs.Fs

open IoJs.Stream IoJs.Library IoJs.Path IoJs.Path.Posix List
open IoJs.RegExp (isLineTerminator js)

variable {Error : Type}
variable {tail name path resolvedLink : JSString} {names' target : List JSString} {c : UInt16}

/-! ## The next part -/

/-- What `nextPartRe` finds of a name -/
def shown : JSString → JSString
  | [] => []
  | c :: rest => if (c :: rest).any isLineTerminator then shown rest else c :: rest

/-- The path of a directory, with a slash at the end -/
def directory (names : List JSString) : JSString :=
  slash :: names.flatMap fun name => shown name ++ [slash]

/-- Nothing, or one slash and something else -/
def Cut (tail : JSString) : Prop := tail = [] ∨ ∃ more, tail = slash :: more ∧
    more.head? ≠ some slash

theorem isSeparator_posix (c : UInt16) : isSeparator false c = decide (c = slash) := by
  rw [isSeparator, Bool.false_and, Bool.or_false]
  rfl

theorem takeWhile_cut (cut : Cut tail) : tail.takeWhile (isSeparator false) = tail.take 1 := by
  rcases cut with rfl | ⟨more, rfl, other⟩
  · rfl
  cases more with
  | nil => rfl
  | cons c more =>
    have differ : c ≠ slash := fun same => other (congrArg some same)
    simp [isSeparator_posix, decide_eq_false differ]

theorem matchPart_cut (free : slash ∉ name) (cut : Cut tail) : matchPart false (name ++ tail) =
    if name.any isLineTerminator then none else some (name, tail.take 1) := by
  induction name with
  | nil =>
    have separators := takeWhile_cut cut
    rw [nil_append, any_nil, if_neg Bool.false_ne_true]
    rcases cut with rfl | ⟨more, rfl, -⟩
    · rfl
    · rw [matchPart, isSeparator_posix, if_pos (decide_eq_true rfl), separators]
  | cons c name ih =>
    obtain ⟨other, free⟩ := not_or.mp (mt mem_cons.mpr free)
    rw [cons_append, matchPart, isSeparator_posix, decide_eq_false (Ne.symm other),
      if_neg Bool.false_ne_true, ih free, any_cons]
    by_cases line : isLineTerminator c = true
    · simp [line]
    · grind

theorem searchPart_cut (free : slash ∉ name) (cut : Cut tail) (i : Nat) :
    searchPart false i (name ++ tail) =
      ⟨shown name ++ tail.take 1, shown name, i + name.length + (tail.take 1).length⟩ := by
  induction name generalizing i with
  | nil =>
    have found := matchPart_cut (not_mem_nil (a := slash)) cut
    rw [nil_append] at found ⊢
    rcases cut with rfl | ⟨more, rfl, -⟩
    · rfl
    rw [searchPart, found]
    rfl
  | cons c name ih =>
    have found := matchPart_cut free cut
    obtain ⟨-, free'⟩ := not_or.mp (mt mem_cons.mpr free)
    rw [cons_append] at found ⊢
    rw [searchPart, found, shown]
    by_cases line : (c :: name).any isLineTerminator = true
    · rw [if_pos line, if_pos line, ih free', length_cons]
      rw [Nat.add_right_comm i 1, Nat.add_assoc i]
    · grind

/-! ## Where the walk is -/

/-- The names of a resolved path -/
abbrev ResolvedTo (path : JSString) (names : List JSString) : Prop := Resolved path ⟨0, names⟩

/-- The walk is at the head of the loop, with `rest` left of `p`. -/
structure At (w : Walk) (done rest : List JSString) : Prop where
  resolved : ResolvedTo w.p (done ++ rest)
  left : w.p.drop w.pos = [slash].intercalate rest
  current : rest ≠ [] → w.current = directory done

variable {cwd : JSString} {fs : FileSystem Error} {w : Walk} {done rest names : List JSString}
  {name : JSString} {shared : Shared}

theorem ResolvedTo.absolute (resolved : ResolvedTo path names) :
    path = slash :: [slash].intercalate names := by
  rw [resolved.written, assemble, writeTail]
  simp

theorem head_intercalate (proper : ∀ name ∈ names, Proper name ∧ slash ∉ name) :
    ([slash].intercalate names).head? ≠ some slash := by
  intro head
  cases names with
  | nil => cases head
  | cons name names =>
    obtain ⟨filled, free⟩ := proper name mem_cons_self
    obtain ⟨c, name, rfl⟩ := exists_cons_of_ne_nil filled.filled
    refine free (mem_cons.mpr (.inl (Option.some.inj ?_)))
    rw [← head]
    by_cases single : names = []
    · simp
    · simp

namespace At

theorem rest_proper (at_ : At w done rest) : ∀ name ∈ rest, Proper name ∧ slash ∉ name :=
  fun name mem => at_.resolved.proper name (mem_append_right _ mem)

theorem more_iff (at_ : At w done rest) : w.pos < w.p.length ↔ rest ≠ [] := by
  have left := congrArg List.length at_.left
  rw [length_drop] at left
  constructor
  · rintro more rfl
    rw [intercalate_nil, length_nil] at left
    omega
  intro some_
  have filled := intercalate_ne_nil slash some_ fun name mem => (at_.rest_proper name mem).1.filled
  have := length_pos_iff.mpr filled
  omega

theorem exists_tail (at_ : At w done (name :: rest)) :
    ∃ tail, w.p.drop w.pos = name ++ tail ∧ Cut tail ∧ tail.drop (tail.take 1).length =
      [slash].intercalate rest ∧ (rest ≠ [] → tail.take 1 = [slash]) := by
  have left := at_.left
  by_cases last : rest = []
  · subst last
    rw [intercalate_singleton] at left
    exact ⟨[], by rw [left, append_nil], .inl rfl, rfl, fun some_ => absurd rfl some_⟩
  rw [intercalate_cons slash name last] at left
  refine ⟨_, left, .inr ⟨_, rfl, ?_⟩, rfl, fun _ => rfl⟩
  exact head_intercalate fun p mem => at_.rest_proper p (mem_cons_of_mem _ mem)

theorem directory_snoc (done : List JSString) (name : JSString) :
    directory (done ++ [name]) = directory done ++ (shown name ++ [slash]) := by
  simp [directory]

theorem findPart (cwd : JSString) (at_ : At w done (name :: rest)) (shared : Shared) :
    ∃ current pos, (w.findPart (.posix cwd) shared).1 = { w with
          previous := directory done
          current
          base := directory done ++ shown name
          pos } ∧
      At (w.findPart (.posix cwd) shared).1 (done ++ [name]) rest := by
  obtain ⟨tail, split, cut, behind, more⟩ := at_.exists_tail
  have free : slash ∉ name := (at_.rest_proper name mem_cons_self).2
  have current := at_.current (cons_ne_nil _ _)
  have found : execNextPart false w.pos w.p =
      ⟨shown name ++ tail.take 1, shown name, w.pos + name.length + (tail.take 1).length⟩ := by
    rw [execNextPart, split, searchPart_cut free cut]
  have eq : (w.findPart (.posix cwd) shared).1 = { w with
        previous := directory done
        current := directory done ++ (shown name ++ tail.take 1)
        base := directory done ++ shown name
        pos := w.pos + name.length + (tail.take 1).length } := by
    rw [Walk.findPart]
    dsimp only [Platform.posix]
    rw [found, current]
  refine ⟨_, _, eq, ?_⟩
  rw [eq]
  refine ⟨?_, ?_, fun some_ => ?_⟩
  · simpa using at_.resolved
  · rw [Nat.add_assoc, ← drop_drop, split, ← drop_drop, drop_left]
    exact behind
  rw [directory_snoc]
  rw [more some_]

end At

/-! ## Starting over -/

theorem resolvedTo_resolve (absolute : isAbsolute cwd = true) (paths : List JSString) :
    ResolvedTo (resolve cwd paths) (namesOf (resolve cwd paths)) := by
  have resolved := resolve_eq absolute paths
  rw [resolved.namesOf]
  exact ⟨resolved.written, rfl, resolved.proper⟩

section

variable (resolved : ResolvedTo path names)
include resolved

theorem ResolvedTo.eq (resolved' : ResolvedTo path names') : names = names' :=
  resolved.namesOf.symm.trans resolved'.namesOf

theorem ResolvedTo.unique {path' : JSString} (resolved' : ResolvedTo path' names) : path = path' :=
  resolved.written.trans resolved'.written.symm

theorem ResolvedTo.destination : destination false path = ⟨0, names⟩ := by
  have proper : ∀ p ∈ names, p ≠ [] ∧ slash ∉ p :=
    fun p mem => ⟨(resolved.proper p mem).1.filled, (resolved.proper p mem).2⟩
  have moves : names.map move = names.map .down := map_congr_left fun p mem =>
    move_of_proper (resolved.proper p mem).1
  rw [resolved.written, destination_assemble false proper, place, moves]
  exact Position.walk_downs false _ _

end

theorem resolve_slice (absolute : isAbsolute cwd = true) (resolved : ResolvedTo resolvedLink target)
    (proper : ∀ name ∈ rest, Proper name ∧ slash ∉ name) :
    ResolvedTo (resolve cwd [resolvedLink, [slash].intercalate rest]) (target ++ rest) := by
  have leads := resolve_eq absolute [resolvedLink, [slash].intercalate rest]
  have first : cd (Posix.destination false cwd) resolvedLink = ⟨0, target⟩ := by
    have absolute' : isAbsolute resolvedLink = true := by
      rw [resolved.absolute]
      rfl
    rw [cd, if_neg (isAbsolute_iff.mp absolute').1, if_pos absolute', resolved.destination]
  have second : cd ⟨0, target⟩ ([slash].intercalate rest) = ⟨0, target ++ rest⟩ := by
    by_cases none_ : rest = []
    · rw [none_, intercalate_nil, cd, if_pos rfl, append_nil]
    have filled := intercalate_ne_nil slash none_ fun name mem => (proper name mem).1.filled
    have parts := splitOn_intercalate slash (fun name mem => (proper name mem).2) none_
    have relative : ¬isAbsolute ([slash].intercalate rest) = true := by
      intro absolute'
      have head := (isAbsolute_iff.mp absolute').2
      rw [parts] at head
      exact (proper [] (mem_of_head? head)).1.filled rfl
    have moves : rest.map move = rest.map .down := map_congr_left fun p mem =>
      move_of_proper (proper p mem).1
    simp [cd, filled, relative, parts, moves, Position.walk_downs]
  rw [foldl_cons, foldl_cons, foldl_nil, first, second] at leads
  exact leads

theorem splitRoot_resolved (resolved : ResolvedTo path names) : splitRoot false path = [slash] := by
  have cut : Cut path := .inr ⟨_, resolved.absolute, head_intercalate resolved.proper⟩
  rw [splitRoot, if_neg Bool.false_ne_true, nil_append, length_nil, drop_zero,
    takeWhile_cut cut, resolved.absolute, take_succ_cons, take_zero]

theorem At.skipRoots (resolved : ResolvedTo w.p names) :
    At (w.skipRoots (.posix cwd)) [] names := by
  have root : splitRoot (Platform.posix cwd).isWindows w.p = [slash] := splitRoot_resolved resolved
  rw [Walk.skipRoots, root]
  refine ⟨resolved, ?_, fun _ => rfl⟩
  rw [resolved.absolute]
  rfl

theorem startSync_posix (cwd : JSString) (fs : FileSystem Error) (w : Walk) :
    w.startSync (.posix cwd) fs = .ok (w.skipRoots (.posix cwd)) := rfl

theorem At.follow (fs : FileSystem Error) (absolute : isAbsolute cwd = true) (at_ : At w done rest)
    (resolved : ResolvedTo resolvedLink target) (shared : Shared) :
    ∃ w', w.followSync (.posix cwd) fs shared resolvedLink = .inl (w', shared) ∧
      At w' [] (target ++ rest) ∧ w'.seenLinks = w.seenLinks ∧ w'.knownHard = w.knownHard := by
  have started := startSync_posix cwd fs (w.replace (.posix cwd) resolvedLink)
  refine ⟨(w.replace (.posix cwd) resolvedLink).skipRoots (.posix cwd), ?_,
    At.skipRoots ?_, rfl, rfl⟩
  · rw [Walk.followSync, started]
  show ResolvedTo (resolve cwd [resolvedLink, w.p.drop w.pos]) (target ++ rest)
  rw [at_.left]
  exact resolve_slice absolute resolved at_.rest_proper

/-! ## What the file system has -/

/-- The path under which a list of names is looked up -/
def basePath (names : List JSString) : JSString :=
  directory names.dropLast ++ shown (names.getLastD [])

/-- What is found under a path in a directory. A link has to lead to something. -/
def lookAt (cwd : JSString) (fs : FileSystem Error) (previous base : JSString) :
    Entry JSString Error :=
  match fs.lstat base with
  | .error error => .missing error
  | .ok stat =>
    if stat.symbolicLink then
      match fs.stat base with
      | .error error => .missing error
      | .ok () =>
        match fs.readlink base with
        | .error error => .missing error
        | .ok target => .link (namesOf (resolve cwd [previous, target]))
    else .hard

/-- What is found under a list of names -/
def look (cwd : JSString) (fs : FileSystem Error) (names : List JSString) : Entry JSString Error :=
  lookAt cwd fs (directory names.dropLast) (basePath names)

theorem look_snoc (done : List JSString) (name : JSString) : look cwd fs (done ++ [name]) =
    lookAt cwd fs (directory done) (directory done ++ shown name) := by
  simp [look, basePath]

theorem basePath_snoc (done : List JSString) (name : JSString) :
    basePath (done ++ [name]) = directory done ++ shown name := by
  simp [basePath]

theorem basePath_eq (filled : names ≠ []) :
    basePath names = slash :: [slash].intercalate (names.map shown) := by
  rcases eq_nil_or_concat' names with rfl | ⟨done, name, rfl⟩
  · exact absurd rfl filled
  rw [basePath_snoc, directory, cons_append]
  refine congrArg (slash :: ·) ?_
  clear filled
  induction done with
  | nil => exact intercalate_singleton.symm
  | cons first done ih => simp [intercalate_cons, ih]

theorem shown_of_plain (plain : name.any isLineTerminator = false) : shown name = name := by
  cases name with
  | nil => rfl
  | cons => rw [shown, plain, if_neg Bool.false_ne_true]

/-! ## The tables of a walk -/

/-- Two paths of one link, which `dev` and `ino` tell, lead both to something or neither does, and
the link has one target. -/
def LinksTold (fs : FileSystem Error) : Prop :=
  ∀ ⦃a b : JSString⦄ ⦃stat stat' : Stats⦄, fs.lstat a = .ok stat → fs.lstat b = .ok stat' →
    stat.symbolicLink = true → stat'.symbolicLink = true → stat.dev = stat'.dev →
    stat.ino = stat'.ino → fs.stat a = .ok () → fs.stat b = .ok () ∧ fs.readlink b = fs.readlink a

/-- What is in `seenLinks` and `knownHard` -/
structure Tables (fs : FileSystem Error) (w : Walk) : Prop where
  seen : ∀ ⦃id target⦄, w.seenLinks id = some target → ∃ base stat, fs.lstat base = .ok stat ∧
    stat.symbolicLink = true ∧ id = (stat.dev, stat.ino) ∧ fs.stat base = .ok () ∧
    fs.readlink base = .ok target
  hard : ∀ ⦃base⦄, w.knownHard base = true →
    ∃ stat, fs.lstat base = .ok stat ∧ stat.symbolicLink = false

namespace Tables

variable {stat : Stats} {target previous : JSString}

theorem new (p : JSString) : Tables fs (.new p) where
  seen := by
    intro id target found
    cases found
  hard := by
    intro base found
    cases found

section

variable (tables : Tables fs w)
include tables

theorem congr {w' : Walk} (seen : w'.seenLinks = w.seenLinks)
    (hard : w'.knownHard = w.knownHard) : Tables fs w' := by
  obtain ⟨seen', hard'⟩ := tables
  rw [← seen] at seen'
  rw [← hard] at hard'
  exact ⟨seen', hard'⟩

theorem setHard (found : fs.lstat w.base = .ok stat)
    (hard : stat.symbolicLink = false) : Tables fs w.setHard where
  seen := tables.seen
  hard base known := by
    change Function.update w.knownHard w.base true base = true at known
    by_cases here : base = w.base
    · rw [here]
      exact ⟨stat, found, hard⟩
    rw [Function.update_of_ne here] at known
    exact tables.hard known

theorem setSeen (found : fs.lstat w.base = .ok stat)
    (link : stat.symbolicLink = true) (leads : fs.stat w.base = .ok ())
    (read : fs.readlink w.base = .ok target) :
    Tables fs (w.setSeen (.posix cwd) (stat.dev, stat.ino) target) where
  seen id target' known := by
    change Function.update w.seenLinks (stat.dev, stat.ino) (some target) id = some target' at known
    by_cases here : id = (stat.dev, stat.ino)
    · rw [here, Function.update_self] at known
      cases known
      exact ⟨w.base, stat, found, link, here, leads, read⟩
    rw [Function.update_of_ne here] at known
    exact tables.seen known
  hard := tables.hard

theorem of_seen (told : LinksTold fs) (found : fs.lstat w.base = .ok stat)
    (link : stat.symbolicLink = true)
    (seen : w.seen (.posix cwd) (stat.dev, stat.ino) = some target) :
    fs.stat w.base = .ok () ∧ fs.readlink w.base = .ok target := by
  obtain ⟨base, stat', found', link', id, leads, read⟩ := tables.seen seen
  obtain ⟨dev, ino⟩ := Prod.mk.inj id
  have same := told found' found link' link dev.symm ino.symm leads
  exact ⟨same.1, same.2.trans read⟩

theorem linkTarget_ok (told : LinksTold fs)
    (found : fs.lstat w.base = .ok stat) (link : stat.symbolicLink = true)
    (read : w.linkTarget (.posix cwd) fs (stat.dev, stat.ino) = .ok target) :
    fs.stat w.base = .ok () ∧ fs.readlink w.base = .ok target := by
  rw [Walk.linkTarget] at read
  cases seen : w.seen (.posix cwd) (stat.dev, stat.ino) with
  | some =>
    rw [seen] at read
    obtain rfl := Except.ok.inj read
    exact tables.of_seen told found link seen
  | none =>
    rw [seen] at read
    cases leads : fs.stat w.base with
    | error => simp [leads] at read
    | ok => grind

end

theorem lookAt_ok (cwd previous : JSString) (found : fs.lstat w.base = .ok stat)
    (link : stat.symbolicLink = true) (leads : fs.stat w.base = .ok ())
    (read : fs.readlink w.base = .ok target) :
    lookAt cwd fs previous w.base = .link (namesOf (resolve cwd [previous, target])) := by
  simp [lookAt, found, link, leads, read]

theorem lookAt_failed {error : Error} (found : fs.lstat w.base = .ok stat)
    (link : stat.symbolicLink = true)
    (failed : w.linkTarget (.posix cwd) fs (stat.dev, stat.ino) = .error error) :
    lookAt cwd fs previous w.base = .missing error := by
  rw [Walk.linkTarget] at failed
  cases seen : w.seen (.posix cwd) (stat.dev, stat.ino) with
  | some => simp [seen] at failed
  | none =>
    rw [seen] at failed
    rw [lookAt, found]
    dsimp only
    cases leads : fs.stat w.base with
    | error => grind
    | ok => grind

theorem lookAt_hard {base : JSString} (found : fs.lstat base = .ok stat)
    (hard : stat.symbolicLink = false) : lookAt cwd fs previous base = .hard := by
  simp [lookAt, found, hard]

end Tables

theorem lookAt_eq_hard_iff {base previous : JSString} : lookAt cwd fs previous base = .hard ↔
    ∃ stat, fs.lstat base = .ok stat ∧ stat.symbolicLink = false := by
  constructor
  · intro hard
    rw [lookAt] at hard
    cases found : fs.lstat base with
    | error => simp [found] at hard
    | ok stat =>
      refine ⟨stat, rfl, Bool.eq_false_iff.mpr fun link => ?_⟩
      cases leads : fs.stat base with
      | error => grind
      | ok => grind
  rintro ⟨stat, found, hard⟩
  exact Tables.lookAt_hard found hard

end IoJs.Fs
