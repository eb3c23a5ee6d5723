import IoJs.Fs.Components

/-!
# The walk without a cache

A turn of the loop is a turn of the walk of the file system (`Walking.turn`), which passes a name
that is no link and starts over at a link. So a call ends as the walk of its names does
(`returnsSync_walk`).
-/

namespace IoJs.Fs

open IoJs.Stream IoJs.Library IoJs.Path IoJs.Path.Posix List

variable {Error : Type} {cwd : JSString} {fs : FileSystem Error}
variable {p : JSString} {shared : Shared} {done rest target names : List JSString} {name : JSString}

/-- Names as a resolved path has them -/
def ProperNames (names : List JSString) : Prop := ∀ name ∈ names, Proper name ∧ slash ∉ name

/-- The walk of the file system -/
abbrev walkTurn (cwd : JSString) (fs : FileSystem Error) :
    Place JSString → Place JSString ⊕ Except Error (List JSString) :=
  Place.turn (look cwd fs)

/-! ## The loop -/

/-- The loop has come to a place of the walk. -/
structure Walking (cwd : JSString) (fs : FileSystem Error) (s : Walk × Shared)
    (place : Place JSString) : Prop where
  at_ : At s.1 place.1 place.2
  tables : Tables fs s.1
  noCache : s.2.cache = none

/-- The same end, as text and as names -/
inductive Same : Outcome Error → Except Error (List JSString) → Prop where
  | returned {p : JSString} {names : List JSString} (resolved : ResolvedTo p names) :
      Same (.ok p) (.ok names)
  | threw (error : Error) : Same (.error error) (.error error)

theorem Same.unique {outcome outcome' : Outcome Error} {r : Except Error (List JSString)}
    (same : Same outcome r) (same' : Same outcome' r) : outcome = outcome' := by
  cases same with
  | returned resolved =>
    cases same' with
    | returned resolved' => rw [resolved.unique resolved']
  | threw =>
    cases same' with
    | threw => rfl

/-- What a turn of the walk makes of a turn of the loop -/
def Goes (cwd : JSString) (fs : FileSystem Error) (place : Place JSString) :
    Walk × Shared ⊕ Outcome Error × Option Cache → Prop
  | .inl s => ∃ place', walkTurn cwd fs place = .inl place' ∧ Walking cwd fs s place'
  | .inr result => ∃ r, walkTurn cwd fs place = .inr r ∧ Same result.1 r

/-- The next part has been found. -/
structure Reading (cwd : JSString) (fs : FileSystem Error) (w : Walk) (shared : Shared)
    (done : List JSString) (name : JSString) (rest : List JSString) : Prop where
  at_ : At w (done ++ [name]) rest
  look_eq : look cwd fs (done ++ [name]) = lookAt cwd fs w.previous w.base
  tables : Tables fs w
  noCache : shared.cache = none

namespace Reading

variable {w w' : Walk} {shared' : Shared}

theorem goes_hard (here : look cwd fs (done ++ [name]) = .hard) (at_ : At w' (done ++ [name]) rest)
    (tables : Tables fs w') (noCache : shared'.cache = none) :
    Goes cwd fs (done, name :: rest) (.inl (w', shared')) :=
  ⟨_, Place.turn_hard here, at_, tables, noCache⟩

theorem goes_link (absolute : isAbsolute cwd = true)
    (here : look cwd fs (done ++ [name]) = .link target) (at_ : At w' (done ++ [name]) rest)
    (tables : Tables fs w') (noCache : shared'.cache = none) {resolvedLink : JSString}
    (resolved : ResolvedTo resolvedLink target) :
    Goes cwd fs (done, name :: rest) (w'.followSync (.posix cwd) fs shared' resolvedLink) := by
  obtain ⟨w'', followed, at', seen, hard⟩ := at_.follow fs absolute resolved shared'
  rw [followed]
  exact ⟨_, Place.turn_link here, at', tables.congr seen hard, noCache⟩

theorem goes_missing {error : Error} (here : look cwd fs (done ++ [name]) = .missing error)
    (cache : Option Cache) : Goes cwd fs (done, name :: rest) (.inr (.error error, cache)) := by
  have ended : walkTurn cwd fs (done, name :: rest) = .inr (.error error) := by
    rw [walkTurn, Place.turn, here]
    rfl
  exact ⟨_, ended, .threw error⟩

theorem check (absolute : isAbsolute cwd = true) (told : LinksTold fs)
    (reading : Reading cwd fs w shared done name rest) :
    Goes cwd fs (done, name :: rest) (w.checkSync (.posix cwd) fs shared) := by
  have look_eq := reading.look_eq
  have uncached : ∀ key, shared.cached key = none := by
    intro key
    rw [Shared.cached, reading.noCache]
    rfl
  have remembers : ∀ key value, (shared.remember key value).cache = none := by
    intro key value
    rw [Shared.remember, reading.noCache]
    rfl
  rw [Walk.checkSync]
  by_cases known : w.isKnown shared = true
  · rw [if_pos known]
    rw [Walk.isKnown, uncached, Bool.or_eq_true] at known
    rcases known with known | known
    · have here := look_eq.trans (lookAt_eq_hard_iff.mpr (reading.tables.hard known))
      exact goes_hard here reading.at_ reading.tables reading.noCache
    · cases known
  rw [if_neg known, uncached]
  cases found : fs.lstat w.base with
  | error =>
    refine goes_missing ?_ _
    rw [look_eq, lookAt, found]
  | ok stat =>
    dsimp only
    cases link : stat.symbolicLink with
    | false =>
      have here := look_eq.trans (Tables.lookAt_hard found link)
      exact goes_hard here ⟨reading.at_.resolved, reading.at_.left, reading.at_.current⟩
        (reading.tables.setHard found link) (remembers _ _)
    | true =>
      cases read : w.linkTarget (.posix cwd) fs (stat.dev, stat.ino) with
      | error => exact goes_missing (look_eq.trans (Tables.lookAt_failed found link read)) _
      | ok target =>
        obtain ⟨leads, target_eq⟩ := reading.tables.linkTarget_ok told found link read
        have here := look_eq.trans (Tables.lookAt_ok cwd w.previous found link leads target_eq)
        have at' : At (w.setSeen (.posix cwd) (stat.dev, stat.ino) target) (done ++ [name]) rest :=
          ⟨reading.at_.resolved, reading.at_.left, reading.at_.current⟩
        exact goes_link absolute here at' (reading.tables.setSeen found link leads target_eq)
          (remembers _ _) (resolvedTo_resolve absolute [w.previous, target])

end Reading

namespace Walking

variable {s : Walk × Shared} {place : Place JSString}

/-- A turn of the loop is a turn of the walk, and both end together. -/
theorem turn (absolute : isAbsolute cwd = true) (told : LinksTold fs)
    (walking : Walking cwd fs s place) : Goes cwd fs place (turnSync (.posix cwd) fs s) := by
  obtain ⟨w, shared⟩ := s
  obtain ⟨done, rest⟩ := place
  obtain ⟨at_, tables, noCache⟩ := walking
  rw [turnSync]
  cases rest with
  | nil =>
    have here := at_.resolved
    rw [append_nil] at here
    rw [if_neg fun more => at_.more_iff.mp more rfl]
    exact ⟨.ok done, rfl, .returned here⟩
  | cons name rest =>
    obtain ⟨current, pos, eq, at'⟩ := at_.findPart cwd shared
    rw [if_pos (at_.more_iff.mpr (cons_ne_nil _ _))]
    dsimp only
    rw [eq] at at' ⊢
    have reading : Reading cwd fs _ (w.findPart (.posix cwd) shared).2 done name rest :=
      ⟨at', look_snoc done name, tables.congr rfl rfl, noCache⟩
    exact reading.check absolute told

/-- So the loop ends with what the walk ends with, and with nothing else. -/
theorem ends (absolute : isAbsolute cwd = true) (told : LinksTold fs)
    (walking : Walking cwd fs s place) :
    (∀ result, Returns (turnSync (.posix cwd) fs) s result →
      ∃ r, Returns (walkTurn cwd fs) place r ∧ Same result.1 r) ∧
    ∀ r, Returns (walkTurn cwd fs) place r →
      ∃ result, Returns (turnSync (.posix cwd) fs) s result ∧ Same result.1 r := by
  have turns : ∀ {s s' place}, Walking cwd fs s place → turnSync (.posix cwd) fs s = .inl s' →
      ∃ n place', after (walkTurn cwd fs) (n + 1) place = .inl place' ∧
        Walking cwd fs s' place' := by
    intro s s' place walking turned
    have goes := walking.turn absolute told
    rw [turned] at goes
    obtain ⟨place', went, walking'⟩ := goes
    exact ⟨0, place', (after_one _ _).trans went, walking'⟩
  have ended : ∀ {s place result}, Walking cwd fs s place →
    turnSync (.posix cwd) fs s = .inr result →
      ∃ r, Returns (walkTurn cwd fs) place r ∧ Same result.1 r := by
    intro s place result walking done
    have goes := walking.turn absolute told
    rw [done] at goes
    obtain ⟨r, went, same⟩ := goes
    exact ⟨r, .done went, same⟩
  constructor
  · exact fun result returns =>
      returns.simulate (Walking cwd fs) (fun result r => Same result.1 r) turns ended walking
  · exact fun r returns =>
      returns.reflect (Walking cwd fs) (fun result r => Same result.1 r) turns ended walking

end Walking

/-! ## A call -/

theorem walking_start (resolved : ResolvedTo p names) (noCache : shared.cache = none) :
    Walking cwd fs ((Walk.new p).skipRoots (.posix cwd), shared) ([], names) where
  at_ := At.skipRoots resolved
  tables := (Tables.new p).congr rfl rfl
  noCache := noCache

/-- A call without a cache ends as the walk of its resolved path does. -/
theorem returnsSync_walk (absolute : isAbsolute cwd = true) (told : LinksTold fs)
    (outcome : Outcome Error) :
    (∃ left, ReturnsSync (.posix cwd) fs p none (outcome, left)) ↔
      ∃ r, Returns (walkTurn cwd fs) ([], namesOf (resolve cwd [p])) r ∧ Same outcome r := by
  have started : realpathSync (.posix cwd) fs p ⟨none, 0⟩ =
      .inl ((Walk.new (resolve cwd [p])).skipRoots (.posix cwd), ⟨none, 0⟩) := rfl
  have walking : Walking cwd fs ((Walk.new (resolve cwd [p])).skipRoots (.posix cwd),
    ⟨none, 0⟩) _ :=
    walking_start (resolvedTo_resolve absolute [p]) rfl
  obtain ⟨forth, back⟩ := walking.ends absolute told
  constructor
  · rintro ⟨left, called⟩
    exact forth _ called
  rintro ⟨r, real, same⟩
  obtain ⟨⟨outcome', left⟩, called, same'⟩ := back r real
  obtain rfl := same'.unique same
  exact ⟨left, called⟩

end IoJs.Fs
