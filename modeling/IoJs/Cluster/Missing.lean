import IoJs.Cluster.Grants

/-!
# What the master takes for granted

The master reads properties of `this.handle`, of `handles[key]` and of callbacks that it looks up,
and none of these reads is guarded. `State.missing` says of an action whether one of them finds
nothing: each definition here follows the function of the same name in the model, and stops where
that function throws.
-/

namespace IoJs.Cluster

open List Option

namespace State

/-- `done`, of one request after the other -/
def doneMissing (s : State) (r : Nat) : List Waiting → Bool
  | [] => false
  | w :: waiting =>
    -- `self.handle.getsockname`
    (s.rrs r).socket ≠ .listening ||
      match s.reply (s.rrs r).key w 0 with
      -- `handles[key].data`
      | none => true
      | some s => (s.handoff r w.worker).doneMissing r waiting

/-- The `'error'` of one request after the other -/
def failuresMissing (s : State) (r : Nat) (errno : Int) : List Waiting → Bool
  | [] => false
  | w :: waiting =>
    match s.reply (s.rrs r).key w errno with
    -- `handles[key].data`
    | none => true
    | some s => s.failuresMissing r errno waiting

/-- `RoundRobinHandle.prototype.add` -/
def addMissing (s : State) (r : Nat) (waiting : Waiting) : Bool :=
  let rr := s.rrs r
  if waiting.worker ∈ rr.all then false
  else
    let rr := { rr with all := rr.all ++ [waiting.worker] }
    match rr.socket with
    | .listening => (s.setRR r rr).doneMissing r [waiting]
    -- `self.handle.getsockname`
    | .closed => true
    | _ => false

/-- `queryServer` -/
def queryMissing (s : State) (key : Key) (waiting : Waiting) : Bool :=
  match s.handles.find? (·.1 = key) with
  | some (_, r) => s.addMissing r waiting
  | none =>
    let s := { s.setRR s.count (.new key) with
      count := s.count + 1
      handles := s.handles ++ [(key, s.count)] }
    s.addMissing (s.count - 1) waiting

/-- `RoundRobinHandle.prototype.remove`: `this.handle.close` -/
def removeMissing (s : State) (r : Nat) (worker : WorkerId) : Bool := (s.remove r worker).2.isNone

def closeMissing (s : State) (key : Key) (worker : WorkerId) : Bool :=
  match s.handles.find? (·.1 = key) with
  | some entry => s.removeMissing entry.2 worker
  -- `handle.remove`
  | none => true

/-- `removeHandlesForWorker` -/
def removeHandlesMissing (s : State) (worker : WorkerId) : List Key → Bool
  | [] => false
  | key :: keys =>
    match s.handles.find? (·.1 = key) with
    | none => s.removeHandlesMissing worker keys
    | some entry =>
      s.removeMissing entry.2 worker ||
        (s.removeKey entry worker).1.removeHandlesMissing worker keys

/-- `internal`, in the master -/
def receiveMissing (s : State) (worker : WorkerId) : ToMaster → Bool
  | .queryServer seq key => s.queryMissing key { worker, seq }
  | .close key => s.closeMissing key worker
  -- `fn.apply`
  | .ack ack _ => (s.callbacks.find? (·.1 = ack)).isNone

/-- An action finds nothing where it reads a property. -/
def missing (s : State) : Action → Bool
  | .listening r =>
    let rr := s.rrs r
    (s.setRR r { rr with socket := .listening, waiting := [] }).doneMissing r rr.waiting
  | .error r errno =>
    let rr := s.rrs r
    (s.setRR r { rr with socket := .failed, waiting := [] }).failuresMissing r errno rr.waiting
  | .toMaster i => s.toMaster[i]?.any fun message =>
    { s with toMaster := s.toMaster.eraseIdx i }.receiveMissing message.1 message.2
  | .disconnected w =>
    (s.setWorker w { s.workers w with channel := .gone }).removeHandlesMissing w
      (s.handles.map (·.1))
  | _ => false

end State

/-! ## Shared handles -/

/-- `SharedHandle`; `handle` is whether there is one. -/
structure SharedHandle where
  workers : List WorkerId
  handle : Bool
  errno : Int
  deriving DecidableEq

namespace SharedHandle

/-- The constructor; it gets a handle, or the number of an error, which is not zero. -/
def new (errno : Int) : SharedHandle := { workers := [], handle := errno = 0, errno }

/-- `SharedHandle.prototype.remove`; it returns nothing if it throws. -/
def remove (h : SharedHandle) (worker : WorkerId) : SharedHandle × Option Bool :=
  -- the worker wasn't sharing this handle
  if worker ∉ h.workers then (h, some false)
  else
    let h := { h with workers := h.workers.erase worker }
    if h.workers ≠ [] then (h, some false)
    else if h.handle then ({ h with handle := false }, some true)
    else (h, none)

end SharedHandle

/-- The cluster with shared handles -/
structure Master where
  rr : State
  shared : List (Key × SharedHandle)
  -- the replies to `queryServer`, of shared handles
  replies : List (WorkerId × Int × Key)

namespace Master

def initial : Master := { rr := .initial, shared := [], replies := [] }

/-- The answer to `queryServer`, unless `handles[key]` is gone. -/
def reply (m : Master) (key : Key) (w : WorkerId) (errno : Int) : Option Master :=
  if m.shared.any (·.1 = key) then
    -- gives other workers a chance to retry
    let m := if errno ≠ 0 then { m with shared := m.shared.filter (·.1 ≠ key) } else m
    some { m with replies := m.replies ++ [(w, errno, key)] }
  else none

/-- `SharedHandle.prototype.add`; it returns nothing if `handles[key]` is gone. -/
def add (m : Master) (entry : Key × SharedHandle) (w : WorkerId) : Option Master :=
  if w ∈ entry.2.workers then some m
  else
    let h := { entry.2 with workers := entry.2.workers ++ [w] }
    let shared := m.shared.map fun e => if e.1 = entry.1 then (entry.1, h) else e
    { m with shared }.reply entry.1 w h.errno

/-- `queryServer`, of a shared handle; `errno` is what a new one gets. -/
def queryServer (m : Master) (key : Key) (w : WorkerId) (errno : Int) : Option Master :=
  match m.shared.find? (·.1 = key) with
  | some entry => m.add entry w
  | none =>
    let h := SharedHandle.new errno
    { m with shared := m.shared ++ [(key, h)] }.add (key, h) w

/-- `removeHandlesForWorker`, of shared handles -/
def removeHandles (w : WorkerId) : List (Key × SharedHandle) → List (Key × SharedHandle)
  | [] => []
  | (key, h) :: rest =>
    match h.remove w with
    | (_, some true) => removeHandles w rest
    | (h, some false) => (key, h) :: removeHandles w rest
    | (h, none) => (key, h) :: rest

inductive Action where
  | rr (action : State.Action)
  -- a `queryServer` for a shared handle arrives
  | queryServer (w : WorkerId) (key : Key) (errno : Int)

/-- A key is one of a shared handle or of a `RoundRobinHandle`: the policy is frozen, and the type
of the address is in the key. -/
def step (isShared : Key → Bool) (m : Master) : Action → Option Master
  | .rr (.listen w key) =>
    if isShared key then none else (m.rr.step (.listen w key)).map ({ m with rr := · })
  | .rr (.disconnected w) =>
    (m.rr.step (.disconnected w)).map fun rr => { m with rr, shared := removeHandles w m.shared }
  | .rr action => (m.rr.step action).map ({ m with rr := · })
  | .queryServer w key errno =>
    let channel := (m.rr.workers w).channel
    if isShared key ∧ (channel = .open ∨ channel = .shut) then
      some ((m.queryServer key w errno).getD m)
    else none

/-- An action finds nothing where it reads a property. -/
def missing (m : Master) : Action → Bool
  | .rr (.disconnected w) =>
    m.rr.missing (.disconnected w) || m.shared.any fun e => (e.2.remove w).2.isNone
  | .rr action => m.rr.missing action
  | .queryServer w key errno => (m.queryServer key w errno).isNone

/-- The end of a channel comes after all that has been sent on it. -/
def drained (m : Master) : Action → Bool
  | .rr action => m.rr.drained action
  | .queryServer _ _ _ => true

/-- The actions that find what they need -/
def findsHandle (m : Master) : Action → Bool
  | .rr action => m.rr.findsHandle action
  | .queryServer _ _ _ => true

end Master

/-! ## What is there -/

namespace State

variable {s s' : State} {r : Nat} {w : WorkerId}

theorem doneMissing_eq_false (waiting : List Waiting) : ∀ {s : State},
    ((s.rrs r).key, r) ∈ s.handles → (s.rrs r).socket = .listening →
    s.doneMissing r waiting = false := by
  induction waiting with
  | nil =>
    intro s _ _
    rfl
  | cons first waiting ih =>
    intro s listed listening
    have same := (SameTable.send s first.worker fun _ => .reply first.seq 0 (s.rrs r).key).trans
      (.handoff _ r first.worker)
    rw [doneMissing, reply_of_listed listed, Bool.or_eq_false_iff]
    refine ⟨by simp [listening], ih ?_ ?_⟩
    · rw [same.key, same.handles]
      exact listed
    rw [same.socket]
    exact listening

theorem failuresMissing_zero (waiting : List Waiting) : ∀ {s : State},
    ((s.rrs r).key, r) ∈ s.handles → s.failuresMissing r 0 waiting = false := by
  induction waiting with
  | nil =>
    intro s _
    rfl
  | cons first waiting ih =>
    intro s listed
    rw [failuresMissing, reply_of_listed listed]
    exact ih listed

theorem failuresMissing_of_few (listed : ((s.rrs r).key, r) ∈ s.handles) (errno : Int)
    {waiting : List Waiting} (few : waiting.length ≤ 1) :
    s.failuresMissing r errno waiting = false := by
  rcases waiting with _ | ⟨first, _ | ⟨second, rest⟩⟩
  · rfl
  · have there : s.handles.any (·.1 = (s.rrs r).key) = true :=
      List.any_eq_true.mpr ⟨_, listed, by simp⟩
    simp [failuresMissing, reply, there]
  · simp at few

theorem addMissing_eq_false (listed : ((s.rrs r).key, r) ∈ s.handles)
    (present : (s.rrs r).socket ≠ .closed) (waiting : Waiting) :
    s.addMissing r waiting = false := by
  rw [addMissing]
  split_ifs with absent
  · rfl
  dsimp only
  split
  · rename_i listening
    refine doneMissing_eq_false [waiting] ?_ ?_
    · rw [rrs_setRR]
      exact listed
    rw [rrs_setRR]
    exact listening
  · grind
  · rfl

theorem queryMissing_eq_false (custody : Custody [] s) (key : Key) (waiting : Waiting) :
    s.queryMissing key waiting = false := by
  rw [queryMissing]
  cases found : s.handles.find? (·.1 = key) with
  | some entry =>
    have mem := mem_of_find?_eq_some found
    obtain ⟨present, same, -⟩ := custody.table entry mem
    refine addMissing_eq_false ?_ present waiting
    rw [same]
    exact mem
  | none =>
    refine addMissing_eq_false ?_ ?_ waiting
    · simp [RoundRobinHandle.new]
    · simp [RoundRobinHandle.new]

theorem removeMissing_eq_false (last : s.lastListening r w = true) :
    s.removeMissing r w = false := by
  rw [lastListening, Bool.or_eq_true, Bool.or_eq_true] at last
  rw [removeMissing, remove]
  by_cases listed : w ∈ (s.rrs r).all
  · grind
  · simp [listed]

theorem removeHandlesMissing_eq_false (keys : List Key) (nodup : keys.Nodup) : ∀ {s : State},
    Custody [] s → (∀ e ∈ s.handles, e.1 ∈ keys → s.lastListening e.2 w = true) →
    s.removeHandlesMissing w keys = false := by
  induction keys with
  | nil =>
    intro s _ _
    rfl
  | cons key keys ih =>
    intro s custody last
    rw [nodup_cons] at nodup
    rw [removeHandlesMissing]
    cases found : s.handles.find? (·.1 = key) with
    | none => exact ih nodup.2 custody fun e mem later => last e mem (mem_cons_of_mem key later)
    | some entry =>
      have mem := mem_of_find?_eq_some found
      have same : entry.1 = key := by simpa using List.find?_some found
      dsimp only
      rw [removeMissing_eq_false (last entry mem (same ▸ mem_cons_self)), Bool.false_or]
      refine ih nodup.2 (custody.removeKey mem w) ?_
      exact Granted.lastListening_removeKey custody mem (same ▸ nodup.1) fun e before later =>
        last e before (mem_cons_of_mem key later)

/-- A step that finds its handles misses nothing. -/
theorem missing_eq_false (inv : Inv s) (tabled : Tabled s) (granted : Granted s) {action : Action}
    (finds : s.findsHandle action = true) (stepped : s.step action = some s') :
    s.missing action = false := by
  cases action with
  | listening r =>
    rw [step] at stepped
    split_ifs at stepped with ready
    refine doneMissing_eq_false _ ?_ ?_
    · rw [rrs_setRR]
      exact tabled.bound r ready.1 (.inl ready.2)
    · simp
  | error r errno =>
    rw [step] at stepped
    split_ifs at stepped with ready
    have listed : (((s.setRR r { s.rrs r with socket := .failed, waiting := [] }).rrs r).key, r) ∈
        (s.setRR r { s.rrs r with socket := .failed, waiting := [] }).handles := by
      rw [rrs_setRR]
      exact tabled.bound r ready.1 (.inl ready.2)
    by_cases wrong : errno = 0
    · subst wrong
      exact failuresMissing_zero _ listed
    · exact failuresMissing_of_few listed errno (by simpa [findsHandle, wrong] using finds)
  | toMaster i =>
    obtain ⟨⟨w, message⟩, arrived, -⟩ := bind_eq_some_iff.mp stepped
    have custody : Custody [] { s with toMaster := s.toMaster.eraseIdx i } :=
      inv.custody.of_eq rfl rfl (List.Subset.refl _) rfl rfl rfl
    rw [missing, arrived, any_some]
    cases message with
    | queryServer seq key => exact queryMissing_eq_false custody key _
    | close key =>
      obtain ⟨r, listed, -⟩ := granted.leaves_of_close arrived
      rw [findsHandle, arrived, all_some] at finds
      rw [receiveMissing, closeMissing]
      dsimp only at finds ⊢
      cases found : s.handles.find? (·.1 = key) with
      | none => exact absurd rfl (Tabled.fresh_of_find found _ listed)
      | some =>
        rw [found] at finds
        exact removeMissing_eq_false finds
    | ack n accepted =>
      have answer : (n, accepted) ∈ s.acks := mem_filterMap.mpr ⟨_, mem_of_getElem? arrived, rfl⟩
      obtain ⟨e, mem, same⟩ := inv.posted.ack _ answer
      rw [receiveMissing, isNone_eq_false_iff, List.find?_isSome]
      exact ⟨e, mem, by simpa using same⟩
  | disconnected w =>
    refine removeHandlesMissing_eq_false _ tabled.keys
      (inv.custody.of_eq rfl rfl (List.Subset.refl _) rfl rfl rfl) ?_
    intro e mem _
    exact List.all_eq_true.mp finds e mem
  | fork | onconnection | onconnectionError | toWorker | listen | close | disconnect | exit
  | tellDisconnect => rfl

end State

/-! ## Every run -/

namespace Master

variable {isShared : Key → Bool} {m m' : Master}
variable {entry : Key × SharedHandle} {w : WorkerId} {key : Key} {errno : Int} {action : Action}

/-- The shared handles in the table are there. -/
def Shared (shared : List (Key × SharedHandle)) : Prop :=
  ∀ e ∈ shared, e.2.handle = true ∧ e.2.errno = 0

theorem remove_cases {h : SharedHandle} (there : h.handle = true) (w : WorkerId) :
    (∃ workers, h.remove w = ({ h with workers }, some false)) ∨
      ∃ h', h.remove w = (h', some true) := by
  rw [SharedHandle.remove]
  by_cases absent : w ∉ h.workers
  · rw [if_pos absent]
    exact .inl ⟨_, rfl⟩
  rw [if_neg absent]
  by_cases left : h.workers.erase w ≠ []
  · rw [if_pos left]
    exact .inl ⟨_, rfl⟩
  rw [if_neg left, if_pos there]
  exact .inr ⟨_, rfl⟩

theorem Shared.removeHandles (w : WorkerId) (shared : List (Key × SharedHandle)) :
    Shared shared → Shared (removeHandles w shared) := by
  induction shared with
  | nil => exact id
  | cons e shared ih =>
    intro there
    have first := there _ mem_cons_self
    have rest : Shared (Master.removeHandles w shared) :=
      ih fun e mem => there e (mem_cons_of_mem _ mem)
    rw [Master.removeHandles]
    obtain ⟨workers, eq⟩ | ⟨h', eq⟩ := remove_cases first.1 w
    · rw [eq]
      intro e mem
      obtain rfl | later := mem_cons.mp mem
      · exact first
      · exact rest e later
    rw [eq]
    exact rest

theorem Shared.removes {shared : List (Key × SharedHandle)} (there : Shared shared) (w : WorkerId) :
    shared.any (fun e => (e.2.remove w).2.isNone) = false := by
  rw [List.any_eq_false]
  intro e mem
  obtain ⟨workers, eq⟩ | ⟨h', eq⟩ := remove_cases (there e mem).1 w
  · rw [eq]
    simp
  rw [eq]
  simp

theorem add_isSome (mem : entry ∈ m.shared) (w : WorkerId) : (m.add entry w).isSome = true := by
  rw [add]
  split_ifs with known
  · rfl
  rw [reply, if_pos]
  · rfl
  rw [List.any_map, List.any_eq_true]
  exact ⟨entry, mem, by simp⟩

theorem queryServer_isSome (m : Master) (key : Key) (w : WorkerId) (errno : Int) :
    (m.queryServer key w errno).isSome = true := by
  rw [queryServer]
  cases found : m.shared.find? (·.1 = key) with
  | some => exact add_isSome (mem_of_find?_eq_some found) w
  | none => exact add_isSome (mem_append_right _ mem_cons_self) w

theorem Shared.add (others : ∀ e ∈ m.shared, e.1 ≠ entry.1 → e.2.handle = true ∧ e.2.errno = 0)
    (whole : entry.2.handle = true ↔ entry.2.errno = 0)
    (old : w ∈ entry.2.workers → Shared m.shared) (added : m.add entry w = some m') :
    Shared m'.shared := by
  rw [Master.add] at added
  split_ifs at added with known
  · cases added
    exact old known
  rw [reply] at added
  split_ifs at added with there wrong
  · cases added
    intro e mem
    obtain ⟨inside, other⟩ := mem_filter.mp mem
    obtain ⟨e', mem', rfl⟩ := List.mem_map.mp inside
    split_ifs at other ⊢ with same
    · simp at other
    · exact others e' mem' same
  cases added
  intro e mem
  obtain ⟨e', mem', rfl⟩ := List.mem_map.mp mem
  split_ifs with same
  · exact ⟨whole.mpr (not_not.mp wrong), not_not.mp wrong⟩
  · exact others e' mem' same

theorem Shared.queryServer (there : Shared m.shared)
    (queried : m.queryServer key w errno = some m') : Shared m'.shared := by
  rw [Master.queryServer] at queried
  cases found : m.shared.find? (·.1 = key) with
  | some entry =>
    rw [found] at queried
    obtain ⟨handle, right⟩ := there entry (mem_of_find?_eq_some found)
    refine Shared.add (fun e mem _ => there e mem) ?_ (fun _ => there) queried
    simp [handle, right]
  | none =>
    rw [found] at queried
    refine Shared.add ?_ ?_ ?_ queried
    · intro e mem other
      obtain old | here := mem_append.mp mem
      · exact there e old
      · simp [mem_singleton.mp here] at other
    · simp [SharedHandle.new]
    intro member
    cases member

/-- What holds at any time -/
structure Holds (m : Master) : Prop where
  inv : Inv m.rr
  tabled : Tabled m.rr
  granted : Granted m.rr
  shared : Shared m.shared

theorem Holds.initial : Holds initial where
  inv := .initial
  tabled := .initial
  granted := .initial
  shared _ mem := absurd mem not_mem_nil

theorem rr_of_add (added : m.add entry w = some m') : m'.rr = m.rr := by grind [add, reply]

theorem rr_of_queryServer (queried : m.queryServer key w errno = some m') : m'.rr = m.rr := by
  rw [queryServer] at queried
  cases found : m.shared.find? (·.1 = key) with
  | some =>
    rw [found] at queried
    exact rr_of_add queried
  | none =>
    rw [found] at queried
    have added : (Master.mk m.rr (m.shared ++ [(key, .new errno)]) m.replies).add
        (key, .new errno) w = some m' := queried
    have same := rr_of_add added
    exact same

/-- A step of the master is one of round robin, or a query for a server. -/
theorem step_cases (stepped : m.step isShared action = some m') :
    (∃ a, action = .rr a ∧ m.rr.step a = some m'.rr ∧
        (m'.shared = m.shared ∨ ∃ w, m'.shared = removeHandles w m.shared)) ∨
      ∃ w key errno, action = .queryServer w key errno ∧ m.queryServer key w errno = some m' := by
  cases action with
  | rr a =>
    refine .inl ⟨a, rfl, ?_⟩
    cases a with
    | listen =>
      rw [step] at stepped
      split_ifs at stepped
      obtain ⟨s, stepped', rfl⟩ := map_eq_some_iff.mp stepped
      exact ⟨stepped', .inl rfl⟩
    | disconnected w =>
      obtain ⟨s, stepped', rfl⟩ := map_eq_some_iff.mp stepped
      exact ⟨stepped', .inr ⟨w, rfl⟩⟩
    | fork | onconnection | onconnectionError | listening | error | toMaster | toWorker | close
    | disconnect | exit | tellDisconnect =>
      rw [step] at stepped
      · obtain ⟨s, stepped', rfl⟩ := map_eq_some_iff.mp stepped
        exact ⟨stepped', .inl rfl⟩
      · simp
      · simp
  | queryServer w key errno =>
    refine .inr ⟨w, key, errno, rfl, ?_⟩
    rw [step] at stepped
    split_ifs at stepped
    obtain ⟨m'', queried⟩ := isSome_iff_exists.mp (queryServer_isSome m key w errno)
    rw [queried, getD_some] at stepped
    rw [queried, stepped]

/-- One step of the master keeps what holds, if it finds what it needs. -/
theorem Holds.step (holds : Holds m) (drained : m.drained action = true)
    (finds : m.findsHandle action = true) (stepped : m.step isShared action = some m') :
    Holds m' := by
  obtain ⟨a, rfl, stepped, shared⟩ | ⟨w, key, errno, rfl, queried⟩ := step_cases stepped
  · refine ⟨holds.inv.step stepped, holds.tabled.step stepped,
      holds.granted.step holds.tabled holds.inv.custody drained finds stepped, ?_⟩
    obtain same | ⟨w, removed⟩ := shared
    · rw [same]
      exact holds.shared
    rw [removed]
    exact holds.shared.removeHandles w
  have rr := rr_of_queryServer queried
  refine ⟨?_, ?_, ?_, holds.shared.queryServer queried⟩
  · rw [rr]
    exact holds.inv
  · rw [rr]
    exact holds.tabled
  rw [rr]
  exact holds.granted

/-- **The master finds what it needs.**  In every run in which the last worker of a
`RoundRobinHandle` goes only when the socket listens, and in which an error of the socket finds at
most one worker waiting: no action reads a property of a handle, of an entry of the table or of a
callback that is not there. -/
theorem nothing_missing_of_run (run : Library.Run (step isShared)
      (fun m action => m.drained action = true ∧ m.findsHandle action = true) initial m)
    {action : Action} (possible : (m.step isShared action).isSome = true)
    (finds : m.findsHandle action = true) : m.missing action = false := by
  have holds : Holds m := run.invariant Holds .initial fun holds permitted stepped =>
    holds.step permitted.1 permitted.2 stepped
  obtain ⟨m', stepped⟩ := isSome_iff_exists.mp possible
  obtain ⟨a, rfl, stepped, -⟩ | ⟨w, key, errno, rfl, queried⟩ := step_cases stepped
  · have there := State.missing_eq_false holds.inv holds.tabled holds.granted finds stepped
    cases a with
    | disconnected w =>
      rw [missing, there, Bool.false_or]
      exact holds.shared.removes w
    | fork | onconnection | onconnectionError | listening | error | toMaster | toWorker | listen
    | close | disconnect | exit | tellDisconnect => exact there
  rw [missing, queried]
  rfl

/-- Two workers listen, and both leave; one of them shares a socket, too. -/
theorem nothing_missing_of_two : ∃ m : Master,
    m.shared = [("53:udp4", ⟨[2], true, 0⟩)] ∧ (m.rr.rrs 0).all = [2] ∧
      m.missing (.rr (.disconnected 2)) = false := by
  obtain ⟨m, run, shared, all, possible, finds⟩ := Library.Run.exists_of_exec
    (step fun key => key = "53:udp4")
    (fun m action => m.drained action = true ∧ m.findsHandle action = true) initial
    (fun m => m.shared = [("53:udp4", ⟨[2], true, 0⟩)] ∧ (m.rr.rrs 0).all = [2] ∧
      (m.step (fun key => key = "53:udp4") (.rr (.disconnected 2))).isSome = true ∧
      m.findsHandle (.rr (.disconnected 2)) = true)
    [.rr .fork, .rr .fork, .rr (.listen 1 "8080"), .rr (.listen 2 "8080"), .rr (.toMaster 0),
      .rr (.toMaster 0), .rr (.listening 0), .rr (.toWorker 0), .rr (.toWorker 0),
      .queryServer 2 "53:udp4" 0, .rr (.close 1 "8080"), .rr (.toMaster 0), .rr (.exit 2)]
    (by decide)
  exact ⟨m, shared, all, nothing_missing_of_run run possible finds⟩

/-- The only worker goes while the socket is still busy binding. -/
theorem missing_of_last_worker :
    ¬∀ m : Master, Library.Run (step fun _ => false) (fun m action => m.drained action = true)
      initial m → ∀ action, m.drained action = true →
        (m.step (fun _ => false) action).isSome = true → m.missing action = false := by
  intro claim
  obtain ⟨m, run, drained, possible, gone⟩ := Library.Run.exists_of_exec (step fun _ => false)
    (fun m action => m.drained action = true) initial
    (fun m => m.drained (.rr (.disconnected 1)) = true ∧
      (m.step (fun _ => false) (.rr (.disconnected 1))).isSome = true ∧
      m.missing (.rr (.disconnected 1)) = true)
    [.rr .fork, .rr (.listen 1 "8080"), .rr (.toMaster 0), .rr (.exit 1)] (by decide)
  simp [claim m run _ drained possible] at gone

end Master

end IoJs.Cluster
