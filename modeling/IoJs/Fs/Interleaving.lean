import IoJs.Fs.Realpath

/-!
# `realpath` does what `realpathSync` does

A turn of the loop of `realpathSync` is one callback of `realpath` or more (`Matches.turn`), and
where the loop ends a callback calls `cb`; so the two end alike without a cache.
-/

namespace IoJs.Fs

open IoJs.Stream IoJs.Library List
open IoJs.RegExp (js)

variable {Error : Type} {platform : Platform} {fs : FileSystem Error}
variable {t' : (Walk × Pending) × Shared} {s : Walk × Shared} {resolvedLink : JSString}
  {id : Nat × Nat}

/-! ## A turn of the loop -/

/-- `realpath` waits to go on at the head of the loop. -/
inductive AtLoop (fs : FileSystem Error) (w : Walk) : Walk × Pending → Prop where
  | tick : AtLoop fs w (w, .tick)
  | root {w' : Walk} {stats : Stats} (exists_ : fs.lstat w'.base = .ok stats)
      (same : w = w'.setHard) : AtLoop fs w (w', .root)

/-- The two are at the same place, without a cache. -/
structure Matches (fs : FileSystem Error) (s : Walk × Shared) (t : (Walk × Pending) × Shared) :
    Prop where
  noCache : s.2.cache = none
  noCache' : t.2.cache = none
  atLoop : AtLoop fs s.1 t.1

variable {w w' : Walk} {shared shared' : Shared} {t : Walk × Pending}

theorem AtLoop.callback (atLoop : AtLoop fs w t) (shared : Shared) :
    callback platform fs (t, shared) = w.loop platform shared := by
  cases atLoop with
  | tick => rfl
  | root exists_ same => rw [Fs.callback, exists_, same]

section

variable (noCache : shared.cache = none)
include noCache

theorem cached_none (key : JSString) : shared.cached key = none := by
  rw [Shared.cached, noCache]
  rfl

theorem isKnown_none (w : Walk) : w.isKnown shared = w.knownHard w.base := by
  rw [Walk.isKnown, cached_none noCache]
  exact Bool.or_false _

theorem remember_none (key value : JSString) : shared.remember key value = shared := by
  obtain ⟨cache, lastIndex⟩ := shared
  obtain rfl : cache = none := noCache
  rfl

end

theorem findPart_walk (w : Walk) (shared shared' : Shared) :
    (w.findPart platform shared).1 = (w.findPart platform shared').1 := rfl

theorem start_matches (platform : Platform) (fs : FileSystem Error) (w : Walk) :
    (∃ w', w.startSync platform fs = .ok w' ∧ AtLoop fs w' (w.start platform)) ∨
      ∃ error, w.startSync platform fs = .error error ∧
        ∀ shared, callback platform fs (w.start platform, shared) =
          .inr (.error error, shared.cache) := by
  rw [Walk.startSync, Walk.start]
  by_cases checks : (w.skipRoots platform).checksRoot platform = true
  · rw [if_pos checks, if_pos checks]
    cases found : fs.lstat (w.skipRoots platform).base with
    | ok => exact .inl ⟨_, rfl, .root found rfl⟩
    | error error =>
      refine .inr ⟨error, rfl, fun shared => ?_⟩
      rw [callback, found]
  rw [if_neg checks, if_neg checks]
  exact .inl ⟨_, rfl, .tick⟩

/-- What some callbacks of `realpath` make of a turn of the loop -/
def Follows (platform : Platform) (fs : FileSystem Error) (t : (Walk × Pending) × Shared) :
    Walk × Shared ⊕ Outcome Error × Option Cache → Prop
  | .inl s => ∃ n t', after (callback platform fs) (n + 1) t = .inl t' ∧ Matches fs s t'
  | .inr r => Returns (callback platform fs) t r

theorem Follows.cons {t : (Walk × Pending) × Shared}
    {result : Walk × Shared ⊕ Outcome Error × Option Cache}
    (stepped : callback platform fs t = .inl t') (follows : Follows platform fs t' result) :
    Follows platform fs t result := by
  cases result with
  | inl s =>
    obtain ⟨n, t'', reached, matches_⟩ := follows
    exact ⟨n + 1, t'', (after_succ_inl stepped (n + 1)).trans reached, matches_⟩
  | inr r => exact (returns_iff_of_after (m := 1) (after_succ_inl stepped 0)).mpr follows

theorem Follows.single {t : (Walk × Pending) × Shared}
    (stepped : callback platform fs t = .inl t') (matches_ : Matches fs s t') :
    Follows platform fs t (.inl s) :=
  ⟨0, t', after_succ_inl stepped 0, matches_⟩

theorem Follows.failed {t : (Walk × Pending) × Shared} {r : Outcome Error × Option Cache}
    (done : callback platform fs t = .inr r) : Follows platform fs t (.inr r) := .done done

theorem Follows.link {t : (Walk × Pending) × Shared} (noCache : shared.cache = none)
    (noCache' : shared'.cache = none)
    (stepped : callback platform fs t = .inl (w.gotResolvedLink platform resolvedLink, shared')) :
    Follows platform fs t (w.followSync platform fs shared resolvedLink) := by
  rw [Walk.followSync]
  rcases start_matches platform fs (w.replace platform resolvedLink) with
    ⟨w', started, atLoop⟩ | ⟨error, missing, fails⟩
  · rw [started]
    exact .single stepped ⟨noCache, noCache', atLoop⟩
  rw [missing, noCache, ← noCache']
  exact .cons stepped (.failed (fails shared'))

theorem setSeen_of_seen {target : JSString}
    (seen : w.seen platform id = some target) : w.setSeen platform id target = w := by
  rw [Walk.seen] at seen
  rw [Walk.setSeen]
  by_cases windows : platform.isWindows = true
  · rw [if_pos windows]
  rw [if_neg windows] at seen ⊢
  simp [← seen]

theorem resolveTarget_setSeen (w : Walk) (id : Nat × Nat) (seen target : JSString) :
    (w.setSeen platform id seen).resolveTarget platform target =
      w.resolveTarget platform target := by
  rw [Walk.setSeen]
  split_ifs
  · rfl
  · rfl

section Callbacks

variable {stat : Stats} {error : Error} {id : Nat × Nat} {target : JSString}

theorem lstat_failed (failed : fs.lstat w.base = .error error) (shared : Shared) :
    callback platform fs ((w, .lstat), shared) = .inr (.error error, shared.cache) := by
  rw [callback, failed]
  rfl

section

variable (found : fs.lstat w.base = .ok stat)
include found

theorem lstat_hard (hard : stat.symbolicLink = false) (shared : Shared) :
    callback platform fs ((w, .lstat), shared) =
      .inl ((w.setHard, .tick), shared.remember w.base w.base) := by
  rw [callback, found, Walk.gotStat, hard, Bool.not_false, if_pos rfl]

theorem lstat_seen (link : stat.symbolicLink = true)
    (seen : w.seen platform (stat.dev, stat.ino) = some target) (shared : Shared) :
    callback platform fs ((w, .lstat), shared) =
      .inl (w.gotTarget platform shared target (some w.base)) := by
  simp [callback, found, Walk.gotStat, link, seen]

theorem lstat_unseen (link : stat.symbolicLink = true)
    (unseen : w.seen platform (stat.dev, stat.ino) = none) (shared : Shared) :
    callback platform fs ((w, .lstat), shared) =
      .inl ((w, .stat (stat.dev, stat.ino)), shared) := by
  simp [callback, found, Walk.gotStat, link, unseen]

end

theorem stat_failed (failed : fs.stat w.base = .error error) (shared : Shared) :
    callback platform fs ((w, .stat id), shared) = .inr (.error error, shared.cache) := by
  rw [callback, failed]

theorem stat_ok (exists_ : fs.stat w.base = .ok ()) (shared : Shared) :
    callback platform fs ((w, .stat id), shared) = .inl ((w, .readlink id), shared) := by
  rw [callback, exists_]

theorem readlink_failed (failed : fs.readlink w.base = .error error) (shared : Shared) :
    callback platform fs ((w, .readlink id), shared) = .inr (.error error, shared.cache) := by
  rw [callback, failed]

theorem readlink_ok (read : fs.readlink w.base = .ok target) (shared : Shared) :
    callback platform fs ((w, .readlink id), shared) =
      .inl ((w.setSeen platform id target).gotTarget platform shared target none) := by
  rw [callback, read]

end Callbacks

section

variable (noCache : shared.cache = none) (noCache' : shared'.cache = none)
include noCache noCache'

theorem follows_unseen (unseen : w.seen platform id = none) {linkTarget : JSString}
    (read : w.linkTarget platform fs id = .ok linkTarget) :
    Follows platform fs ((w, .stat id), shared')
      ((w.setSeen platform id linkTarget).followSync platform fs shared
        (w.resolveTarget platform linkTarget)) := by
  rw [Walk.linkTarget, unseen] at read
  cases exists_ : fs.stat w.base with
  | error => simp [exists_] at read
  | ok =>
    rw [exists_] at read
    have got : callback platform fs ((w, .readlink id), shared') =
          .inl ((w.setSeen platform id linkTarget).gotTarget platform shared' linkTarget none) :=
      readlink_ok read shared'
    rw [Walk.gotTarget, resolveTarget_setSeen, remember_none noCache'] at got
    exact .cons (stat_ok exists_ shared') (.link noCache noCache' got)

omit noCache noCache' in
theorem fails_unseen (unseen : w.seen platform id = none) {error : Error}
    (failed : w.linkTarget platform fs id = .error error) :
    Follows platform fs ((w, .stat id), shared') (.inr (.error error, shared'.cache)) := by
  rw [Walk.linkTarget, unseen] at failed
  cases exists_ : fs.stat w.base with
  | error =>
    rw [exists_] at failed
    obtain rfl := Except.error.inj failed
    exact .failed (stat_failed exists_ shared')
  | ok =>
    rw [exists_] at failed
    exact .cons (stat_ok exists_ shared') (.failed (readlink_failed failed shared'))

theorem follows_lstat (unknown : w.isKnown shared = false) :
    Follows platform fs ((w, .lstat), shared') (w.checkSync platform fs shared) := by
  rw [Walk.checkSync, unknown, if_neg Bool.false_ne_true, cached_none noCache]
  simp only [remember_none noCache]
  cases found : fs.lstat w.base with
  | error =>
    rw [noCache, ← noCache']
    exact .failed (lstat_failed found shared')
  | ok stat =>
    dsimp only
    cases link : stat.symbolicLink with
    | false =>
      have stepped : callback platform fs ((w, .lstat), shared') = _ :=
        lstat_hard found link shared'
      rw [remember_none noCache'] at stepped
      exact .single stepped ⟨noCache, noCache', .tick⟩
    | true =>
      cases seen : w.seen platform (stat.dev, stat.ino) with
      | some target =>
        have known : w.linkTarget platform fs (stat.dev, stat.ino) = .ok target := by
          rw [Walk.linkTarget, seen]
        have stepped := lstat_seen found link seen shared'
        rw [Walk.gotTarget, remember_none noCache'] at stepped
        rw [known]
        dsimp only
        rw [setSeen_of_seen seen]
        exact .link noCache noCache' stepped
      | none =>
        refine .cons (lstat_unseen found link seen shared') ?_
        cases read : w.linkTarget platform fs (stat.dev, stat.ino) with
        | error =>
          rw [noCache, ← noCache']
          exact fails_unseen seen read
        | ok => exact follows_unseen noCache noCache' seen read

end

namespace Matches

variable {s : Walk × Shared} {u : (Walk × Pending) × Shared}

/-- A turn of the loop is one callback or more, up to the next turn or to the end. -/
theorem turn (platform : Platform) (matches_ : Matches fs s u) :
    Follows platform fs u (turnSync platform fs s) := by
  obtain ⟨w, shared⟩ := s
  obtain ⟨t, shared'⟩ := u
  obtain ⟨noCache, noCache', atLoop⟩ := matches_
  have stepped : callback platform fs (t, shared') = w.loop platform shared' :=
    atLoop.callback shared'
  rw [Walk.loop] at stepped
  rw [turnSync]
  by_cases more : w.pos < w.p.length
  · have noCache₁ : (w.findPart platform shared).2.cache = none := noCache
    have noCache₂ : (w.findPart platform shared').2.cache = none := noCache'
    rw [if_pos more] at stepped ⊢
    dsimp only at stepped ⊢
    rw [findPart_walk w shared' shared, isKnown_none noCache₂, ← isKnown_none noCache₁,
      cached_none noCache₂] at stepped
    by_cases known : (w.findPart platform shared).1.isKnown (w.findPart platform shared).2 = true
    · rw [if_pos known] at stepped
      rw [Walk.checkSync, if_pos known]
      exact .single stepped ⟨noCache₁, noCache₂, .tick⟩
    rw [if_neg known] at stepped
    exact .cons stepped (follows_lstat noCache₁ noCache₂ (Bool.eq_false_iff.mpr known))
  rw [if_neg more] at stepped ⊢
  rw [remember_none noCache, noCache, ← noCache']
  rw [remember_none noCache'] at stepped
  exact .failed stepped

theorem returns_iff (matches_ : Matches fs s u) {r : Outcome Error × Option Cache} :
    Returns (turnSync platform fs) s r ↔ Returns (callback platform fs) u r := by
  refine returns_iff_of_simulation (Matches fs) ?_ ?_ matches_
  · intro s s' u matches_ turned
    have follows := matches_.turn platform
    rw [turned] at follows
    exact follows
  intro s u r matches_ done
  have follows := matches_.turn platform
  rw [done] at follows
  exact follows

end Matches

/-- A call that no other interrupts calls back with what `realpathSync` ends with. -/
theorem callsBack_none (p : JSString) (r : Outcome Error × Option Cache) :
    CallsBack platform fs p none r ↔ ReturnsSync platform fs p none r := by
  rw [CallsBack, ReturnsSync, realpath, realpathSync, cached_none rfl]
  rcases start_matches platform fs (Walk.new (platform.resolve [p])) with
    ⟨w', started, atLoop⟩ | ⟨error, missing, fails⟩
  · rw [started]
    have matches_ : Matches fs (w', ⟨none, 0⟩)
        ((Walk.new (platform.resolve [p])).start platform, ⟨none, 0⟩) := ⟨rfl, rfl, atLoop⟩
    exact matches_.returns_iff.symm
  rw [missing]
  have done := Returns.done (fails ⟨none, 0⟩)
  constructor
  · exact fun returns => done.unique returns
  intro same
  exact same ▸ done

/-! ## Several calls -/

/-- Which call waits where, or what `cb` got, without what is shared -/
def forget : (Walk × Pending) × Shared ⊕ Outcome Error × Option Cache →
    (Walk × Pending) ⊕ Outcome Error
  | .inl (t, _) => .inl t
  | .inr (outcome, _) => .inr outcome

/-- A call of `realpath`, and how many callbacks it has had -/
structure Call (Error : Type) where
  p : JSString
  state : (Walk × Pending) ⊕ Outcome Error
  callbacks : Nat

structure System (Error : Type) where
  /-- `nextPartRe.lastIndex` -/
  lastIndex : Nat
  calls : List (Call Error)

inductive Action where
  | realpath (p : JSString)
  /-- What the call `i` waits for has happened. -/
  | callback (i : Nat)

namespace System

def call (platform : Platform) (fs : FileSystem Error) (lastIndex : Nat) (c : Call Error) :
    Nat × Call Error :=
  match c.state with
  | .inr _ => (lastIndex, c)
  | .inl waiting =>
    let result := Fs.callback platform fs (waiting, ⟨none, lastIndex⟩)
    (match result with
      | .inl (_, shared) => shared.lastIndex
      | .inr _ => lastIndex,
      { c with state := forget result, callbacks := c.callbacks + 1 })

def step (platform : Platform) (fs : FileSystem Error) (s : System Error) : Action → System Error
  | .realpath p =>
    { s with calls := s.calls ++ [⟨p, .inl (Fs.realpath platform p ⟨none, s.lastIndex⟩), 0⟩] }
  | .callback i =>
    match s.calls[i]? with
    | none => s
    | some c =>
      let called := call platform fs s.lastIndex c
      { lastIndex := called.1, calls := s.calls.set i called.2 }

/-- From the start, where `lastIndex` is 0, after some actions -/
def run (platform : Platform) (fs : FileSystem Error) (actions : List Action) : System Error :=
  actions.foldl (step platform fs) ⟨0, []⟩

end System

/-- A callback, where there is no other call -/
def alone (platform : Platform) (fs : FileSystem Error) (t : Walk × Pending) :
    (Walk × Pending) ⊕ Outcome Error :=
  forget (callback platform fs (t, ⟨none, 0⟩))

/-- There is no cache afterwards. -/
def Uncached : (Walk × Pending) × Shared ⊕ Outcome Error × Option Cache → Prop
  | .inl (_, shared) => shared.cache = none
  | .inr (_, cache) => cache = none

theorem loop_alone (w : Walk) (i : Nat) :
    forget (w.loop platform ⟨none, i⟩ : (Walk × Pending) × Shared ⊕ Outcome Error × Option Cache) =
      forget (w.loop platform ⟨none, 0⟩) ∧
    Uncached
      (w.loop platform ⟨none, i⟩ : (Walk × Pending) × Shared ⊕ Outcome Error × Option Cache) := by
  constructor
  · rw [Walk.loop, Walk.loop]
    split_ifs
    · rfl
    · rfl
  rw [Walk.loop]
  by_cases more : w.pos < w.p.length
  · dsimp only
    split_ifs
    · rfl
    · rfl
  rw [if_neg more]
  rfl

/-- What a callback does is not changed by where other calls have left `lastIndex`. -/
theorem callback_alone (platform : Platform) (fs : FileSystem Error)
    (t : Walk × Pending) (i : Nat) :
    forget (callback platform fs (t, ⟨none, i⟩)) = alone platform fs t ∧
      Uncached (callback platform fs (t, ⟨none, i⟩)) := by
  obtain ⟨w, pending⟩ := t
  rw [alone]
  cases pending with
  | hit => exact ⟨rfl, rfl⟩
  | tick => exact loop_alone w i
  | root =>
    rw [callback, callback]
    cases fs.lstat w.base with
    | error => exact ⟨rfl, rfl⟩
    | ok => exact loop_alone w.setHard i
  | lstat =>
    rw [callback, callback]
    cases fs.lstat w.base with
    | error => exact ⟨rfl, rfl⟩
    | ok stats =>
      rw [Walk.gotStat, Walk.gotStat]
      split_ifs
      · exact ⟨rfl, rfl⟩
      cases w.seen platform (stats.dev, stats.ino) with
      | none => exact ⟨rfl, rfl⟩
      | some => exact ⟨rfl, rfl⟩
  | stat id =>
    rw [callback, callback]
    cases fs.stat w.base with
    | error => exact ⟨rfl, rfl⟩
    | ok => exact ⟨rfl, rfl⟩
  | readlink id =>
    rw [callback, callback]
    cases fs.readlink w.base with
    | error => exact ⟨rfl, rfl⟩
    | ok => exact ⟨rfl, rfl⟩

variable (platform fs) in
theorem after_alone (n : Nat) (t : Walk × Pending) (i : Nat) :
    forget (after (callback platform fs) n (t, ⟨none, i⟩)) = after (alone platform fs) n t ∧
      Uncached (after (callback platform fs) n (t, ⟨none, i⟩)) := by
  induction n generalizing t i with
  | zero => exact ⟨rfl, rfl⟩
  | succ n ih =>
    obtain ⟨same, none_⟩ := callback_alone platform fs t i
    cases stepped : callback platform fs (t, ⟨none, i⟩) with
    | inl next =>
      obtain ⟨t', cache, i'⟩ := next
      rw [stepped] at same none_
      obtain rfl : cache = none := none_
      rw [after_succ_inl stepped, after_succ_inl same.symm]
      exact ih t' i'
    | inr r =>
      rw [stepped] at same none_
      rw [after_succ_inr stepped, after_succ_inr same.symm]
      exact ⟨rfl, none_⟩

theorem returns_alone (t : Walk × Pending) (i : Nat) (outcome : Outcome Error) :
    Returns (callback platform fs) (t, ⟨none, i⟩) (outcome, none) ↔
      Returns (alone platform fs) t outcome := by
  refine exists_congr fun n => ?_
  obtain ⟨same, none_⟩ := after_alone platform fs n t i
  rw [← same]
  cases reached : after (callback platform fs) n (t, ⟨none, i⟩) with
  | inl next => exact iff_of_false nofun fun done => by cases done
  | inr r =>
    obtain ⟨outcome', cache⟩ := r
    rw [reached] at none_
    obtain rfl : cache = none := none_
    constructor
    · rintro ⟨⟩
      rfl
    · rintro ⟨⟩
      rfl

namespace System

/-- Each call is where it would be after as many callbacks, if there were no other. -/
def Sound (platform : Platform) (fs : FileSystem Error) (s : System Error) : Prop :=
  ∀ c ∈ s.calls, c.state =
    after (alone platform fs) c.callbacks (Fs.realpath platform c.p ⟨none, 0⟩)

theorem sound_call {c : Call Error} {i : Nat}
    (sound : c.state = after (alone platform fs) c.callbacks (Fs.realpath platform c.p ⟨none, 0⟩)) :
    (call platform fs i c).2.p = c.p ∧ (call platform fs i c).2.state =
      after (alone platform fs) (call platform fs i c).2.callbacks
        (Fs.realpath platform c.p ⟨none, 0⟩) := by
  rw [call]
  cases state : c.state with
  | inr => exact ⟨rfl, sound⟩
  | inl waiting =>
    refine ⟨rfl, ?_⟩
    dsimp only
    rw [state] at sound
    rw [(callback_alone platform fs waiting i).1, after_add_inl sound.symm, after_one]

/-- Whatever happens, each call stays where it would be alone. -/
theorem Sound.step {s : System Error} (sound : Sound platform fs s) (action : Action) :
    Sound platform fs (step platform fs s action) := by
  cases action with
  | realpath p =>
    intro c mem
    rcases mem_append.mp mem with mem | mem
    · exact sound c mem
    rw [mem_singleton.mp mem]
    rfl
  | callback i =>
    rw [System.step]
    cases found : s.calls[i]? with
    | none => exact sound
    | some c =>
      intro c' mem
      have here := sound_call (i := s.lastIndex) (sound c (mem_of_getElem? found))
      rcases mem_or_eq_of_mem_set mem with mem | rfl
      · exact sound c' mem
      · rw [here.2, here.1]

/-- **In any interleaving** each call is where it would be alone. -/
theorem sound_run (actions : List Action) : Sound platform fs (run platform fs actions) := by
  have start : Sound platform fs ⟨0, []⟩ := nofun
  rw [run]
  generalize (⟨0, []⟩ : System Error) = s at start
  induction actions generalizing s with
  | nil => exact start
  | cons action actions ih => exact ih _ (start.step action)

end System

/-- **`realpath` calls back with what `realpathSync` returns or throws**, whatever other calls are
under way: what a call has ended with is what `realpathSync` ends with, and where that ends with
something, each call ends with it after a number of callbacks of its own. -/
theorem realpath_agrees (platform : Platform) (fs : FileSystem Error) (p : JSString)
    (outcome : Outcome Error) :
    (∀ actions, ∀ c ∈ (System.run platform fs actions).calls, c.p = p → c.state = .inr outcome →
      ReturnsSync platform fs p none (outcome, none)) ∧
    (ReturnsSync platform fs p none (outcome, none) →
      ∃ n, ∀ actions, ∀ c ∈ (System.run platform fs actions).calls, c.p = p →
        c.state = .inr outcome ∨ (∃ waiting, c.state = .inl waiting) ∧ c.callbacks < n) := by
  rw [← callsBack_none, CallsBack, returns_alone]
  constructor
  · rintro actions c mem rfl ended
    exact ⟨c.callbacks, (System.sound_run actions c mem).symm.trans ended⟩
  rintro ⟨n, done⟩
  refine ⟨n, ?_⟩
  rintro actions c mem rfl
  have state := System.sound_run actions c mem
  rcases Nat.lt_or_ge c.callbacks n with few | enough
  · cases waiting : c.state with
    | inl t => exact .inr ⟨⟨t, rfl⟩, few⟩
    | inr =>
      rw [waiting] at state
      have later := after_le_inr state.symm (Nat.le_of_lt few)
      rw [done] at later
      exact .inl (congrArg Sum.inr (Sum.inr.inj later).symm)
  rw [after_le_inr done enough] at state
  exact .inl state

/-- Two links to a file, one of them behind the other, and nothing else -/
def twoLinks : FileSystem String where
  lstat path :=
    if path = js "/a" then .ok ⟨true, 0, 1⟩
    else if path = js "/b" then .ok ⟨true, 0, 2⟩
    else if path = js "/c" then .ok ⟨false, 0, 3⟩
    else .error "ENOENT"
  stat path := if path = js "/a" ∨ path = js "/b" ∨ path = js "/c" then .ok () else .error "ENOENT"
  readlink path :=
    if path = js "/a" then .ok (js "b") else if path = js "/b" then .ok (js "c")
      else .error "EINVAL"

/-- Two calls take turns. -/
theorem realpath_agrees_twice :
    ReturnsSync (.posix (js "/")) twoLinks (js "/a") none (.ok (js "/c"), none) := by
  let actions : List Action := [.realpath (js "/b"), .realpath (js "/a"), .callback 0, .callback 1,
    .callback 1, .callback 0, .callback 0, .callback 1, .callback 1, .callback 0, .callback 1,
    .callback 1, .callback 1, .callback 1, .callback 1, .callback 0, .callback 1, .callback 1]
  have ended : ((System.run (.posix (js "/")) twoLinks actions).calls[1]?.bind fun c =>
      c.state.getRight?.map fun outcome => (c.p, outcome.toOption)) =
        some (js "/a", some (js "/c")) := by decide +kernel
  obtain ⟨c, found, ended⟩ := Option.bind_eq_some_iff.mp ended
  obtain ⟨outcome, state, same⟩ := Option.map_eq_some_iff.mp ended
  obtain ⟨path, result⟩ := Prod.mk.inj same
  cases outcome with
  | error => cases result
  | ok =>
    cases result
    exact (realpath_agrees _ _ _ _).1 actions c (mem_of_getElem? found) path
      (Sum.getRight?_eq_some_iff.mp state)

end IoJs.Fs
