import IoJs.Library.Machine
import IoJs.Path.Resolve

/-!
# `fs.realpath` and `fs.realpathSync`

Both walk down a path and start over, with another path, at each link. `realpathSync` is a loop; in
`realpath` each turn of it is cut where the file system is asked, and what is left waits for a
callback (`Pending`). `nextPartRe` is one regular expression with the flag `g` for all the walks, so
`lastIndex` is shared by them, as the cache may be.
-/

namespace IoJs.Fs

open IoJs.Stream IoJs.RegExp IoJs.Library

variable {Error : Type}

/-! ## What the walks use -/

/-- What `lstat` tells -/
structure Stats where
  symbolicLink : Bool
  dev : Nat
  ino : Nat
  deriving DecidableEq

structure FileSystem (Error : Type) where
  lstat : JSString → Except Error Stats
  stat : JSString → Except Error Unit
  readlink : JSString → Except Error JSString

structure Platform where
  isWindows : Bool
  /-- `pathModule.resolve` -/
  resolve : List JSString → JSString

def Platform.posix (cwd : JSString) : Platform := ⟨false, Path.Posix.resolve cwd⟩

def Platform.windows {table : Path.Win32.LowerCase} (dirs : Path.Win32.Directories table) :
    Platform := ⟨true, Path.Win32.resolve dirs⟩

/-- `[\/\\]` of the patterns for Windows, `[\/]` of the others -/
def isSeparator (isWindows : Bool) (ch : UInt16) : Bool :=
  ch == unit '/' || (isWindows && ch == unit '\\')

/-- `(?:[a-zA-Z]:|[\\\/]{2}[^\\\/]+[\\\/][^\\\/]+)?` -/
def deviceRoot (p : JSString) : JSString :=
  match Path.Win32.splitDrive p, p with
  | some drive, _ => drive.1
  | none, c :: c' :: rest =>
    let server := rest.takeWhile (!isSeparator true ·)
    let behind := rest.dropWhile (!isSeparator true ·)
    let share := (behind.drop 1).takeWhile (!isSeparator true ·)
    if isSeparator true c ∧ isSeparator true c' ∧ server ≠ [] ∧ share ≠ [] then
      c :: c' :: (server ++ behind.take 1 ++ share)
    else []
  | none, _ => []

/-- `splitRootRe.exec(p)[0]` -/
def splitRoot (isWindows : Bool) (p : JSString) : JSString :=
  let device := if isWindows then deviceRoot p else []
  device ++ (p.drop device.length).takeWhile (isSeparator isWindows)

/-- `(.*?)(?:[\/]+|$)`: the shortest name that separators or the end are behind -/
def matchPart (isWindows : Bool) : JSString → Option (JSString × JSString)
  | [] => some ([], [])
  | c :: rest =>
    if isSeparator isWindows c then some ([], (c :: rest).takeWhile (isSeparator isWindows))
    else if isLineTerminator c then none
    else (matchPart isWindows rest).map fun found => (c :: found.1, found.2)

/-- `result`, with the `lastIndex` that the match leaves -/
structure Part where
  whole : JSString
  name : JSString
  lastIndex : Nat

/-- The first match from an index on -/
def searchPart (isWindows : Bool) : Nat → JSString → Part
  | i, [] => ⟨[], [], i⟩
  | i, c :: rest =>
    match matchPart isWindows (c :: rest) with
    | some (name, separators) => ⟨name ++ separators, name, i + (name ++ separators).length⟩
    | none => searchPart isWindows (i + 1) rest

/-- `nextPartRe.exec(p)`; at the end of `p`, if not before, there is a match. -/
def execNextPart (isWindows : Bool) (lastIndex : Nat) (p : JSString) : Part :=
  searchPart isWindows lastIndex (p.drop lastIndex)

/-- The own properties of a cache -/
abbrev Cache := JSString → Option JSString

/-- What different walks have in common -/
structure Shared where
  cache : Option Cache
  /-- `nextPartRe.lastIndex` -/
  lastIndex : Nat

/-- `Object.prototype.hasOwnProperty.call(cache, key)`, with the value -/
def Shared.cached (shared : Shared) (key : JSString) : Option JSString :=
  shared.cache.bind fun cache => cache key

/-- `if (cache) cache[key] = value` -/
def Shared.remember (shared : Shared) (key value : JSString) : Shared :=
  { shared with cache := shared.cache.map fun cache => Function.update cache key (some value) }

/-- The variables of a call -/
structure Walk where
  original : JSString
  p : JSString
  pos : Nat
  current : JSString
  base : JSString
  previous : JSString
  seenLinks : Nat × Nat → Option JSString
  knownHard : JSString → Bool

/-- What a call ends with: a path, or the error that it throws or passes on. -/
abbrev Outcome (Error : Type) := Except Error JSString

section Steps

variable (platform : Platform) (fs : FileSystem Error)

/-- The variables at the call; `p` has been resolved. -/
def Walk.new (p : JSString) : Walk :=
  { original := p, p, pos := 0, current := [], base := [], previous := [],
    seenLinks := fun _ => none, knownHard := fun _ => false }

/-- `start`, up to the check of the root -/
def Walk.skipRoots (w : Walk) : Walk :=
  let m := splitRoot platform.isWindows w.p
  { w with pos := m.length, current := m, base := m, previous := [] }

/-- `start` checks that the root exists. -/
def Walk.checksRoot (w : Walk) : Bool := platform.isWindows && !w.knownHard w.base

/-- `knownHard[base] = true` -/
def Walk.setHard (w : Walk) : Walk :=
  { w with knownHard := Function.update w.knownHard w.base true }

/-- `if (!isWindows) seenLinks[id] = linkTarget` -/
def Walk.setSeen (w : Walk) (id : Nat × Nat) (linkTarget : JSString) : Walk :=
  if platform.isWindows then w
  else { w with seenLinks := Function.update w.seenLinks id (some linkTarget) }

/-- The target of a link that was seen; `dev` and `ino` are no use on Windows. -/
def Walk.seen (w : Walk) (id : Nat × Nat) : Option JSString :=
  if platform.isWindows then none else w.seenLinks id

/-- The next part: `lastIndex` is set before it is used, and read again behind that. -/
def Walk.findPart (w : Walk) (shared : Shared) : Walk × Shared :=
  let shared := { shared with lastIndex := w.pos }
  let result := execNextPart platform.isWindows shared.lastIndex w.p
  let shared := { shared with lastIndex := result.lastIndex }
  ({ w with
      previous := w.current
      current := w.current ++ result.whole
      base := w.current ++ result.name
      pos := shared.lastIndex }, shared)

/-- Continue if not a symlink. -/
def Walk.isKnown (w : Walk) (shared : Shared) : Bool :=
  w.knownHard w.base || shared.cached w.base == some w.base

/-- `pathModule.resolve(previous, linkTarget)` -/
def Walk.resolveTarget (w : Walk) (linkTarget : JSString) : JSString :=
  platform.resolve [w.previous, linkTarget]

/-- `p = pathModule.resolve(resolvedLink, p.slice(pos))` -/
def Walk.replace (w : Walk) (resolvedLink : JSString) : Walk :=
  { w with p := platform.resolve [resolvedLink, w.p.drop w.pos] }

/-! ## `realpathSync` -/

def Walk.startSync (w : Walk) : Except Error Walk :=
  let w := w.skipRoots platform
  if w.checksRoot platform then
    match fs.lstat w.base with
    | .error error => .error error
    | .ok _ => .ok w.setHard
  else .ok w

/-- The link is resolved; start over. -/
def Walk.followSync (w : Walk) (shared : Shared) (resolvedLink : JSString) :
    Walk × Shared ⊕ Outcome Error × Option Cache :=
  match (w.replace platform resolvedLink).startSync platform fs with
  | .error error => .inr (.error error, shared.cache)
  | .ok w => .inl (w, shared)

/-- The target of a link, read if it wasn't read before -/
def Walk.linkTarget (w : Walk) (id : Nat × Nat) : Except Error JSString :=
  match w.seen platform id with
  | some linkTarget => .ok linkTarget
  | none =>
    match fs.stat w.base with
    | .error error => .error error
    | .ok () => fs.readlink w.base

/-- The body of the loop, behind the search for the next part -/
def Walk.checkSync (w : Walk) (shared : Shared) : Walk × Shared ⊕ Outcome Error × Option Cache :=
  if w.isKnown shared then .inl (w, shared)
  else
    match shared.cached w.base with
    | some resolvedLink => w.followSync platform fs shared resolvedLink
    | none =>
      match fs.lstat w.base with
      | .error error => .inr (.error error, shared.cache)
      | .ok stat =>
        if !stat.symbolicLink then .inl (w.setHard, shared.remember w.base w.base)
        else
          match w.linkTarget platform fs (stat.dev, stat.ino) with
          | .error error => .inr (.error error, shared.cache)
          | .ok linkTarget =>
            let resolvedLink := w.resolveTarget platform linkTarget
            (w.setSeen platform (stat.dev, stat.ino) linkTarget).followSync platform fs
              (shared.remember w.base resolvedLink) resolvedLink

/-- One turn of the loop, or what is behind it -/
def turnSync : Walk × Shared → Walk × Shared ⊕ Outcome Error × Option Cache
  | (w, shared) =>
    if w.pos < w.p.length then
      let found := w.findPart platform shared
      found.1.checkSync platform fs found.2
    else .inr (.ok w.p, (shared.remember w.original w.p).cache)

/-- `realpathSync`, up to the loop -/
def realpathSync (p : JSString) (shared : Shared) : Walk × Shared ⊕ Outcome Error × Option Cache :=
  let p := platform.resolve [p]
  match shared.cached p with
  | some value => .inr (.ok value, shared.cache)
  | none =>
    match (Walk.new p).startSync platform fs with
    | .error error => .inr (.error error, shared.cache)
    | .ok w => .inl (w, shared)

/-! ## `realpath` -/

/-- What a call waits for -/
inductive Pending where
  /-- `process.nextTick` of `cb` with an entry of the cache -/
  | hit (value : JSString)
  /-- `process.nextTick(LOOP)` -/
  | tick
  /-- `fs.lstat` of `start` -/
  | root
  /-- `fs.lstat(base, gotStat)` -/
  | lstat
  /-- `fs.stat` of a link -/
  | stat (id : Nat × Nat)
  /-- `fs.readlink` of a link -/
  | readlink (id : Nat × Nat)

def Walk.start (w : Walk) : Walk × Pending :=
  let w := w.skipRoots platform
  if w.checksRoot platform then (w, .root) else (w, .tick)

def Walk.gotResolvedLink (w : Walk) (resolvedLink : JSString) : Walk × Pending :=
  (w.replace platform resolvedLink).start platform

/-- `gotTarget`, without an error. The last argument is missing in one of its calls. -/
def Walk.gotTarget (w : Walk) (shared : Shared) (target : JSString) (base : Option JSString) :
    (Walk × Pending) × Shared :=
  let resolvedLink := w.resolveTarget platform target
  (w.gotResolvedLink platform resolvedLink,
    shared.remember (base.getD (js "undefined")) resolvedLink)

def Walk.loop (w : Walk) (shared : Shared) :
    (Walk × Pending) × Shared ⊕ Outcome Error × Option Cache :=
  if w.pos < w.p.length then
    let found := w.findPart platform shared
    let w := found.1
    let shared := found.2
    if w.isKnown shared then .inl ((w, .tick), shared)
    else
      match shared.cached w.base with
      | some resolvedLink => .inl (w.gotResolvedLink platform resolvedLink, shared)
      | none => .inl ((w, .lstat), shared)
  else .inr (.ok w.p, (shared.remember w.original w.p).cache)

def Walk.gotStat (w : Walk) (shared : Shared) :
    Except Error Stats → (Walk × Pending) × Shared ⊕ Outcome Error × Option Cache
  | .error error => .inr (.error error, shared.cache)
  | .ok stat =>
    if !stat.symbolicLink then .inl ((w.setHard, .tick), shared.remember w.base w.base)
    else
      match w.seen platform (stat.dev, stat.ino) with
      | some target => .inl (w.gotTarget platform shared target (some w.base))
      | none => .inl ((w, .stat (stat.dev, stat.ino)), shared)

/-- What a callback does. Where `cb` is called nothing is left to wait for. -/
def callback : (Walk × Pending) × Shared → (Walk × Pending) × Shared ⊕ Outcome Error × Option Cache
  | ((_, .hit value), shared) => .inr (.ok value, shared.cache)
  | ((w, .tick), shared) => w.loop platform shared
  | ((w, .root), shared) =>
    match fs.lstat w.base with
    | .error error => .inr (.error error, shared.cache)
    | .ok _ => w.setHard.loop platform shared
  | ((w, .lstat), shared) => w.gotStat platform shared (fs.lstat w.base)
  | ((w, .stat id), shared) =>
    match fs.stat w.base with
    | .error error => .inr (.error error, shared.cache)
    | .ok () => .inl ((w, .readlink id), shared)
  | ((w, .readlink id), shared) =>
    match fs.readlink w.base with
    | .error error => .inr (.error error, shared.cache)
    | .ok target => .inl ((w.setSeen platform id target).gotTarget platform shared target none)

/-- The call of `realpath` -/
def realpath (p : JSString) (shared : Shared) : Walk × Pending :=
  let p := platform.resolve [p]
  match shared.cached p with
  | some value => (.new p, .hit value)
  | none => (Walk.new p).start platform

/-! ## Whole calls -/

/-- What `realpathSync` ends with, and what it leaves in the cache -/
def ReturnsSync (p : JSString) (cache : Option Cache) (result : Outcome Error × Option Cache) :
    Prop :=
  Ends (turnSync platform fs) (realpathSync platform fs p ⟨cache, 0⟩) result

/-- What `realpath` passes to `cb` where it is not interrupted -/
def CallsBack (p : JSString) (cache : Option Cache) (result : Outcome Error × Option Cache) :
    Prop :=
  Returns (callback platform fs) (realpath platform p ⟨cache, 0⟩, ⟨cache, 0⟩) result

end Steps

end IoJs.Fs
