import IoJs.Library.Runs
import Mathlib.Logic.Function.Basic
import Mathlib.Tactic.SplitIfs

/-!
# Round-robin scheduling of a cluster

The master accepts connections and hands them to the workers; a worker replies whether it has
accepted what it was handed. The workers listen, close, disconnect and die as they like, and
messages arrive in any order.
-/

namespace IoJs.Cluster

/-- The arguments of a server, joined -/
abbrev Key := String

abbrev WorkerId := Nat

/-- The handle of a connection: the `RoundRobinHandle` that accepted it, and its number. -/
structure Handle where
  home : Nat
  id : Nat
  deriving DecidableEq

/-- `server` and `handle` of a `RoundRobinHandle` -/
inductive Socket where
  -- there is a `server` and no `handle`
  | binding
  | failed
  -- there is a `handle` and no `server`
  | listening
  -- there is neither
  | closed
  deriving DecidableEq

/-- A request that waits for the socket. -/
structure Waiting where
  worker : WorkerId
  seq : Nat

/-- `RoundRobinHandle`; what is `undefined` in `handles` is there after an error. -/
structure RoundRobinHandle where
  key : Key
  all : List WorkerId
  free : List WorkerId
  handles : List (Option Handle)
  socket : Socket
  waiting : List Waiting

/-- The constructor -/
def RoundRobinHandle.new (key : Key) : RoundRobinHandle :=
  { key, all := [], free := [], handles := [], socket := .binding, waiting := [] }

/-- What the callback of a hand-off holds. -/
structure Handoff where
  rr : Nat
  worker : WorkerId
  handle : Handle
  deriving DecidableEq

/-- A message from the master to a worker -/
inductive ToWorker where
  | reply (ack : Nat) (errno : Int) (key : Key)
  | newconn (seq : Nat) (key : Key) (handle : Handle)
  | disconnect (seq : Nat)
  deriving DecidableEq

/-- A message from a worker to the master -/
inductive ToMaster where
  | queryServer (seq : Nat) (key : Key)
  | close (key : Key)
  | ack (ack : Nat) (accepted : Bool)
  deriving DecidableEq

/-- The channel of a worker. -/
inductive Channel where
  | unborn
  | open
  | shut
  -- the master has seen that it is shut
  | gone
  deriving DecidableEq

/-- A worker: the keys that `handles` has, and its own requests. -/
structure Worker where
  handles : List Key
  seq : Nat
  callbacks : List Nat
  channel : Channel

/-- What happens to a connection. -/
inductive Event where
  | connection (handle : Handle)
  -- in the worker
  | accepted (worker : WorkerId) (handle : Handle)
  -- in the master, which has the reply
  | replied (worker : WorkerId) (handle : Handle) (accepted : Bool)
  | closed (handle : Handle)
  deriving DecidableEq

/-- The master, the workers and what is under way between them. -/
structure State where
  rrs : Nat → RoundRobinHandle
  -- how many there are
  count : Nat
  handles : List (Key × Nat)
  seq : Nat
  callbacks : List (Nat × Handoff)
  connections : Nat
  ids : Nat
  workers : WorkerId → Worker
  toWorker : List (WorkerId × ToWorker)
  toMaster : List (WorkerId × ToMaster)
  trace : List Event

namespace State

/-- A master without workers. -/
def initial : State :=
  { rrs := fun _ => .new ""
    count := 0
    handles := []
    seq := 0
    callbacks := []
    connections := 0
    ids := 0
    workers := fun _ => { handles := [], seq := 0, callbacks := [], channel := .unborn }
    toWorker := []
    toMaster := []
    trace := [] }

def setRR (s : State) (r : Nat) (rr : RoundRobinHandle) : State :=
  { s with rrs := Function.update s.rrs r rr }

def setWorker (s : State) (w : WorkerId) (worker : Worker) : State :=
  { s with workers := Function.update s.workers w worker }

def log (s : State) (events : List Event) : State := { s with trace := s.trace ++ events }

/-- The next connection of a socket -/
def accept (s : State) (r : Nat) : Handle := { home := r, id := s.connections }

/-- A connection has been accepted. -/
def arrive (s : State) (handle : Handle) : State :=
  { s with connections := s.connections + 1 }.log [.connection handle]

/-! ## The master -/

/-- `sendHelper` without a callback -/
def send (s : State) (worker : WorkerId) (message : Nat → ToWorker) : State :=
  { s with seq := s.seq + 1, toWorker := s.toWorker ++ [(worker, message s.seq)] }

/-- `sendHelper` with a callback -/
def sendWith (s : State) (worker : WorkerId) (message : Nat → ToWorker) (callback : Handoff) :
    State :=
  { s with callbacks := s.callbacks ++ [(s.seq, callback)] }.send worker message

/-- `RoundRobinHandle.prototype.handoff` -/
def handoff (s : State) (r : Nat) (worker : WorkerId) : State :=
  let rr := s.rrs r
  if worker ∈ rr.all then
    match rr.handles with
    | some handle :: handles =>
      (s.setRR r { rr with handles }).sendWith worker (fun seq => .newconn seq rr.key handle)
        { rr := r, worker, handle }
    -- add to ready queue again
    | none :: handles => s.setRR r { rr with handles, free := rr.free ++ [worker] }
    | [] => s.setRR r { rr with free := rr.free ++ [worker] }
  else
    -- worker is closing (or has closed) the server
    s

/-- `RoundRobinHandle.prototype.distribute` -/
def distribute (s : State) (r : Nat) (handle : Option Handle) : State :=
  let rr := s.rrs r
  match rr.free with
  | [] => s.setRR r { rr with handles := rr.handles ++ [handle] }
  | worker :: free =>
    (s.setRR r { rr with handles := rr.handles ++ [handle], free }).handoff r worker

/-- The callback of a hand-off -/
def answered (s : State) (h : Handoff) (accepted : Bool) : State :=
  let s := s.log [.replied h.worker h.handle accepted]
  let s :=
    if accepted then s.log [.closed h.handle]
    -- worker is shutting down, send to another
    else s.distribute h.rr (some h.handle)
  s.handoff h.rr h.worker

/-- The answer to `queryServer`, unless `handles[key]` is gone. -/
def reply (s : State) (key : Key) (waiting : Waiting) (errno : Int) : Option State :=
  if s.handles.any (·.1 = key) then
    -- gives other workers a chance to retry
    let s := if errno ≠ 0 then { s with handles := s.handles.filter (·.1 ≠ key) } else s
    some (s.send waiting.worker fun _ => .reply waiting.seq errno key)
  else none

/-- `done` of one request after the other -/
def done (s : State) (r : Nat) : List Waiting → State
  | [] => s
  | w :: waiting =>
    match s.reply (s.rrs r).key w 0 with
    | none => s
    -- in case there are connections pending
    | some s => (s.handoff r w.worker).done r waiting

/-- The `'error'` of one request after the other -/
def failures (s : State) (r : Nat) (errno : Int) : List Waiting → State
  | [] => s
  | w :: waiting =>
    match s.reply (s.rrs r).key w errno with
    | none => s
    | some s => s.failures r errno waiting

/-- `RoundRobinHandle.prototype.add` -/
def add (s : State) (r : Nat) (waiting : Waiting) : State :=
  let rr := s.rrs r
  if waiting.worker ∈ rr.all then s
  else
    let rr := { rr with all := rr.all ++ [waiting.worker] }
    match rr.socket with
    | .listening => (s.setRR r rr).done r [waiting]
    | .closed => s.setRR r rr
    -- still busy binding
    | _ => s.setRR r { rr with waiting := rr.waiting ++ [waiting] }

def queryServer (s : State) (key : Key) (waiting : Waiting) : State :=
  match s.handles.find? (·.1 = key) with
  | some (_, r) => s.add r waiting
  | none =>
    let s := { s.setRR s.count (.new key) with
      count := s.count + 1
      handles := s.handles ++ [(key, s.count)] }
    s.add (s.count - 1) waiting

/-- The handles that the loop of `remove` takes off the queue: up to an `undefined`. -/
def shifted : List (Option Handle) → List Handle × List (Option Handle)
  | [] => ([], [])
  | none :: handles => ([], handles)
  | some handle :: handles =>
    let (closed, rest) := shifted handles
    (handle :: closed, rest)

/-- `RoundRobinHandle.prototype.remove`; it returns nothing if it throws. -/
def remove (s : State) (r : Nat) (worker : WorkerId) : State × Option Bool :=
  let rr := s.rrs r
  if worker ∈ rr.all then
    let rr := { rr with all := rr.all.filter (· ≠ worker), free := rr.free.erase worker }
    if rr.all ≠ [] then (s.setRR r rr, some false)
    else
      let (closed, handles) := shifted rr.handles
      let s := s.log (closed.map .closed)
      if rr.socket = .listening then (s.setRR r { rr with handles, socket := .closed }, some true)
      else (s.setRR r { rr with handles }, none)
  else (s, some false)

/-- `handles[key].remove(worker)`, and what follows -/
def removeKey (s : State) (entry : Key × Nat) (worker : WorkerId) : State × Bool :=
  match s.remove entry.2 worker with
  | (s, some true) => ({ s with handles := s.handles.filter (·.1 ≠ entry.1) }, true)
  | (s, some false) => (s, true)
  | (s, none) => (s, false)

def close (s : State) (key : Key) (worker : WorkerId) : State :=
  match s.handles.find? (·.1 = key) with
  | some entry => (s.removeKey entry worker).1
  | none => s

/-- `removeHandlesForWorker` -/
def removeHandles (s : State) (worker : WorkerId) : List Key → State
  | [] => s
  | key :: keys =>
    match s.handles.find? (·.1 = key) with
    | none => s.removeHandles worker keys
    | some entry =>
      match s.removeKey entry worker with
      | (s, true) => s.removeHandles worker keys
      | (s, false) => s

/-- `internal`, in the master -/
def receive (s : State) (worker : WorkerId) : ToMaster → State
  | .queryServer seq key => s.queryServer key { worker, seq }
  | .close key => s.close key worker
  | .ack ack accepted =>
    match s.callbacks.find? (·.1 = ack) with
    | some (_, handoff) =>
      { s with callbacks := s.callbacks.filter (·.1 ≠ ack) }.answered handoff accepted
    | none => s

/-! ## The workers -/

/-- `sendHelper`, in a worker -/
def post (s : State) (w : WorkerId) (message : ToMaster) : State :=
  { s.setWorker w { s.workers w with seq := (s.workers w).seq + 1 } with
    toMaster := s.toMaster ++ [(w, message)] }

def onconnection (s : State) (w : WorkerId) (seq : Nat) (key : Key) (handle : Handle) : State :=
  let accepted := decide (key ∈ (s.workers w).handles)
  let s := s.post w (.ack seq accepted)
  if accepted then s.log [.accepted w handle] else s

/-- `_getServer` -/
def listen (s : State) (w : WorkerId) (key : Key) : State :=
  let worker := s.workers w
  (s.setWorker w { worker with callbacks := worker.callbacks ++ [worker.seq] }).post w
    (.queryServer worker.seq key)

/-- `rr`, when the reply is there -/
def listening (s : State) (w : WorkerId) (ack : Nat) (errno : Int) (key : Key) : State :=
  let worker := s.workers w
  if ack ∈ worker.callbacks then
    let worker := { worker with callbacks := worker.callbacks.erase ack }
    if errno ≠ 0 ∨ key ∈ worker.handles then s.setWorker w worker
    else s.setWorker w { worker with handles := worker.handles ++ [key] }
  else s

/-- `close`, of the handle that a server is given -/
def closeServer (s : State) (w : WorkerId) (key : Key) : State :=
  let s := s.post w (.close key)
  s.setWorker w { s.workers w with handles := (s.workers w).handles.erase key }

/-- `Worker.prototype.disconnect` -/
def disconnect (s : State) (w : WorkerId) : State :=
  let s := (s.workers w).handles.foldl (fun s key => s.closeServer w key) s
  s.setWorker w { s.workers w with channel := .shut }

/-- `internal`, in a worker -/
def receiveInWorker (s : State) (w : WorkerId) : ToWorker → State
  | .reply ack errno key => s.listening w ack errno key
  | .newconn seq key handle => s.onconnection w seq key handle
  | .disconnect _ => s.disconnect w

/-! ## What happens -/

inductive Action where
  | fork
  -- of the socket of a `RoundRobinHandle`
  | onconnection (r : Nat)
  | onconnectionError (r : Nat)
  | listening (r : Nat)
  | error (r : Nat) (errno : Int)
  -- a message arrives
  | toMaster (i : Nat)
  | toWorker (i : Nat)
  -- a worker does something
  | listen (w : WorkerId) (key : Key)
  | close (w : WorkerId) (key : Key)
  | disconnect (w : WorkerId)
  | exit (w : WorkerId)
  -- the master tells a worker to disconnect, or sees that it has
  | tellDisconnect (w : WorkerId)
  | disconnected (w : WorkerId)

def step (s : State) : Action → Option State
  | .fork =>
    let w := s.ids + 1
    some { s.setWorker w { s.workers w with channel := .open } with ids := w }
  | .onconnection r =>
    if r < s.count ∧ (s.rrs r).socket = .listening then
      some ((s.arrive (s.accept r)).distribute r (some (s.accept r)))
    else none
  | .onconnectionError r =>
    if r < s.count ∧ (s.rrs r).socket = .listening then some (s.distribute r none) else none
  | .listening r =>
    let rr := s.rrs r
    if r < s.count ∧ rr.socket = .binding then
      some ((s.setRR r { rr with socket := .listening, waiting := [] }).done r rr.waiting)
    else none
  | .error r errno =>
    let rr := s.rrs r
    if r < s.count ∧ rr.socket = .binding then
      some ((s.setRR r { rr with socket := .failed, waiting := [] }).failures r errno rr.waiting)
    else none
  | .toMaster i => do
      let (w, message) ← s.toMaster[i]?
      some ({ s with toMaster := s.toMaster.eraseIdx i }.receive w message)
  | .toWorker i => do
      let (w, message) ← s.toWorker[i]?
      if (s.workers w).channel = .open then
        some ({ s with toWorker := s.toWorker.eraseIdx i }.receiveInWorker w message)
      else none
  | .listen w key => if (s.workers w).channel = .open then some (s.listen w key) else none
  | .close w key =>
    if (s.workers w).channel = .open ∧ key ∈ (s.workers w).handles then
      some (s.closeServer w key)
    else none
  | .disconnect w => if (s.workers w).channel = .open then some (s.disconnect w) else none
  | .exit w =>
    if (s.workers w).channel = .open then
      some (s.setWorker w { s.workers w with channel := .shut })
    else none
  | .tellDisconnect w =>
    if (s.workers w).channel = .open then some (s.send w .disconnect) else none
  | .disconnected w =>
    if (s.workers w).channel = .shut then
      some ((s.setWorker w { s.workers w with channel := .gone }).removeHandles w
        (s.handles.map (·.1)))
    else none

/-- The states of a cluster -/
abbrev Reached (s : State) : Prop := Library.Run step (fun _ _ => True) initial s

/-! ## What a step can do -/

variable {s s' : State} {action : Action}

/-- What an action does where it can happen -/
inductive Transition (s : State) : Action → State → Prop where
  | fork : Transition s .fork { s.setWorker (s.ids + 1)
      { s.workers (s.ids + 1) with channel := .open } with ids := s.ids + 1 }
  | onconnection (r : Nat) (ready : r < s.count ∧ (s.rrs r).socket = .listening) :
      Transition s (.onconnection r) ((s.arrive (s.accept r)).distribute r (some (s.accept r)))
  | onconnectionError (r : Nat) (ready : r < s.count ∧ (s.rrs r).socket = .listening) :
      Transition s (.onconnectionError r) (s.distribute r none)
  | listening (r : Nat) (ready : r < s.count ∧ (s.rrs r).socket = .binding) :
      Transition s (.listening r)
        ((s.setRR r { s.rrs r with socket := .listening, waiting := [] }).done
        r (s.rrs r).waiting)
  | error (r : Nat) (errno : Int) (ready : r < s.count ∧ (s.rrs r).socket = .binding) :
      Transition s (.error r errno) ((s.setRR r
        { s.rrs r with socket := .failed, waiting := [] }).failures r errno (s.rrs r).waiting)
  | toMaster (i : Nat) (w : WorkerId) (message : ToMaster)
      (arrived : s.toMaster[i]? = some (w, message)) : Transition s (.toMaster i)
        ({ s with toMaster := s.toMaster.eraseIdx i }.receive w message)
  | toWorker (i : Nat) (w : WorkerId) (message : ToWorker)
      (arrived : s.toWorker[i]? = some (w, message)) (opened : (s.workers w).channel = .open) :
      Transition s (.toWorker i)
        ({ s with toWorker := s.toWorker.eraseIdx i }.receiveInWorker w message)
  | listen (w : WorkerId) (key : Key) (opened : (s.workers w).channel = .open) :
      Transition s (.listen w key) (s.listen w key)
  | close (w : WorkerId) (key : Key)
      (ready : (s.workers w).channel = .open ∧ key ∈ (s.workers w).handles) :
      Transition s (.close w key) (s.closeServer w key)
  | disconnect (w : WorkerId) (opened : (s.workers w).channel = .open) :
      Transition s (.disconnect w) (s.disconnect w)
  | exit (w : WorkerId) (opened : (s.workers w).channel = .open) :
      Transition s (.exit w) (s.setWorker w { s.workers w with channel := .shut })
  | tellDisconnect (w : WorkerId) (opened : (s.workers w).channel = .open) :
      Transition s (.tellDisconnect w) (s.send w .disconnect)
  | disconnected (w : WorkerId) (shut : (s.workers w).channel = .shut) :
      Transition s (.disconnected w) ((s.setWorker w
        { s.workers w with channel := .gone }).removeHandles w (s.handles.map (·.1)))

/-- **What a step does**, read off `step` once for all the invariants -/
theorem transition_of_step (stepped : s.step action = some s') : Transition s action s' := by
  cases action with
  | fork =>
    cases stepped
    exact .fork
  | toMaster i =>
    obtain ⟨⟨w, message⟩, arrived, ⟨⟩⟩ := Option.bind_eq_some_iff.mp stepped
    exact .toMaster i w message arrived
  | toWorker i =>
    obtain ⟨⟨w, message⟩, arrived, open_⟩ := Option.bind_eq_some_iff.mp stepped
    obtain ⟨opened, ⟨⟩⟩ := Option.ite_none_right_eq_some.mp open_
    exact .toWorker i w message arrived opened
  | _ =>
    obtain ⟨ready, ⟨⟩⟩ := Option.ite_none_right_eq_some.mp stepped
    constructor
    exact ready

/-- What `removeKey` does: the worker is not there, others stay, the last one closes the socket, or
there is no socket yet. -/
inductive Removed (s : State) (entry : Key × Nat) (w : WorkerId) : State × Bool → Prop where
  | absent (listed : w ∉ (s.rrs entry.2).all) : Removed s entry w (s, true)
  | left (listed : w ∈ (s.rrs entry.2).all)
      (others : (s.rrs entry.2).all.filter (· ≠ w) ≠ []) :
      Removed s entry w (s.setRR entry.2 { s.rrs entry.2 with
        all := (s.rrs entry.2).all.filter (· ≠ w), free := (s.rrs entry.2).free.erase w }, true)
  | closed (listed : w ∈ (s.rrs entry.2).all) (last : (s.rrs entry.2).all.filter (· ≠ w) = [])
      (listening : (s.rrs entry.2).socket = .listening) :
      Removed s entry w
        ({ (s.log ((shifted (s.rrs entry.2).handles).1.map .closed)).setRR entry.2
            { s.rrs entry.2 with
              all := (s.rrs entry.2).all.filter (· ≠ w)
              free := (s.rrs entry.2).free.erase w
              handles := (shifted (s.rrs entry.2).handles).2
              socket := .closed } with handles := s.handles.filter (·.1 ≠ entry.1) }, true)
  | threw (listed : w ∈ (s.rrs entry.2).all) (last : (s.rrs entry.2).all.filter (· ≠ w) = [])
      (early : (s.rrs entry.2).socket ≠ .listening) :
      Removed s entry w
        ((s.log ((shifted (s.rrs entry.2).handles).1.map .closed)).setRR entry.2
          { s.rrs entry.2 with
            all := (s.rrs entry.2).all.filter (· ≠ w)
            free := (s.rrs entry.2).free.erase w
            handles := (shifted (s.rrs entry.2).handles).2 }, false)

theorem removed (s : State) (entry : Key × Nat) (w : WorkerId) :
    Removed s entry w (s.removeKey entry w) := by
  rw [removeKey, remove]
  by_cases listed : w ∈ (s.rrs entry.2).all
  · simp only [if_pos listed]
    by_cases others : (s.rrs entry.2).all.filter (· ≠ w) ≠ []
    · simp only [if_pos others]
      exact .left listed others
    simp only [if_neg others]
    by_cases listening : (s.rrs entry.2).socket = .listening
    · simp only [if_pos listening]
      exact .closed listed (not_not.mp others) listening
    · simp only [if_neg listening]
      exact .threw listed (not_not.mp others) listening
  · simp only [if_neg listed]
    exact .absent listed

/-- What holds with the keys that are left, holds in the end, with those that the loop has not come
to. -/
theorem removeHandles_invariant {w : WorkerId} {P : List Key → State → Prop}
    (skip : ∀ {key keys s}, P (key :: keys) s → P keys s)
    (remove : ∀ {key keys s entry}, P (key :: keys) s → entry ∈ s.handles → entry.1 = key →
      P keys (s.removeKey entry w).1) (keys : List Key) {s : State} (holds : P keys s) :
    ∃ left, P left (s.removeHandles w keys) := by
  induction keys generalizing s with
  | nil => exact ⟨[], holds⟩
  | cons key keys ih =>
    rw [removeHandles]
    cases found : s.handles.find? (·.1 = key) with
    | none => exact ih (skip holds)
    | some entry =>
      have same : entry.1 = key := by simpa using List.find?_some found
      have removed := remove holds (List.mem_of_find?_eq_some found) same
      dsimp only
      rcases eq : s.removeKey entry w with ⟨s', _ | _⟩
      · rw [eq] at removed
        exact ⟨keys, removed⟩
      rw [eq] at removed
      exact ih removed

/-- A worker changes nothing that the master has. -/
theorem receiveInWorker_frame (s : State) (w : WorkerId) (message : ToWorker) :
    (s.receiveInWorker w message).rrs = s.rrs ∧ (s.receiveInWorker w message).handles = s.handles ∧
      (s.receiveInWorker w message).count = s.count ∧
        (s.receiveInWorker w message).callbacks = s.callbacks := by
  cases message with
  | reply =>
    rw [receiveInWorker, listening]
    dsimp only
    split_ifs
    · exact ⟨rfl, rfl, rfl, rfl⟩
    · exact ⟨rfl, rfl, rfl, rfl⟩
    · exact ⟨rfl, rfl, rfl, rfl⟩
  | newconn =>
    rw [receiveInWorker, onconnection]
    split_ifs
    · exact ⟨rfl, rfl, rfl, rfl⟩
    · exact ⟨rfl, rfl, rfl, rfl⟩
  | disconnect seq =>
    exact List.foldlRecOn (motive := fun s' : State => s'.rrs = s.rrs ∧ s'.handles = s.handles ∧
      s'.count = s.count ∧ s'.callbacks = s.callbacks) _ _ ⟨rfl, rfl, rfl, rfl⟩
      fun _ same _ _ => same

end State

end IoJs.Cluster
