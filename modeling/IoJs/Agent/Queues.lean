import IoJs.Agent.Phases

/-!
# The queues of an agent

A request that finds no socket waits in the queue of its key. Whatever happens, those that had to
wait are those that have been given a socket, in that order, and then those that still wait
(`Ordered.order`); and nobody is given two sockets (`Ordered.once`).
-/

namespace IoJs.Agent.State

open IoJs.Stream IoJs.RegExp IoJs.Http List
open Function (update update_of_ne update_self)

variable {config : Config} {env : Environment} {a a' : State} {r s : Nat}
variable {tick : Tick} {rest : List Tick}

/-- The requests that have been given a socket -/
def served (a : State) : List Nat := a.given.map Given.request

/-- Those of them that had waited in the queue of a key -/
def servedFrom (a : State) (name : JSString) : List Nat :=
  (a.given.filter (·.queue = some name)).map Given.request

/-- Nobody is given two sockets, and nobody waits at two places. -/
structure Single (a : State) : Prop where
  waiting : ∀ name, ∀ r ∈ a.requests name, r < a.nextRequest ∧ r ∉ a.served
  apart : ∀ name, (a.requests name).Nodup
  oneKey : ∀ {name name' : JSString} {r : Nat},
    r ∈ a.requests name → r ∈ a.requests name' → name = name'
  known : ∀ r ∈ a.served, r < a.nextRequest
  once : a.served.Nodup
  asked : ∀ r s, Tick.onSocket r s ∈ a.ticks → ∃ g ∈ a.given, g.request = r ∧ g.socket = s

/-- What holds of the queues at any time -/
structure Ordered (a : State) : Prop extends Single a where
  order : ∀ name, a.queued name = a.servedFrom name ++ a.requests name

theorem Ordered.new : Ordered .new where
  waiting _ _ mem := absurd mem not_mem_nil
  apart _ := nodup_nil
  oneKey mem := absurd mem not_mem_nil
  known _ mem := absurd mem not_mem_nil
  once := nodup_nil
  asked _ _ mem := absurd mem not_mem_nil
  order _ := rfl

/-- Two states with the same queues -/
structure SameQueues (a a' : State) : Prop where
  requests : a'.requests = a.requests
  queued : a'.queued = a.queued
  given : a'.given = a.given
  ticks : a'.ticks = a.ticks
  nextRequest : a'.nextRequest = a.nextRequest

theorem SameQueues.served (same : SameQueues a a') : a'.served = a.served :=
  congrArg (List.map Given.request) same.given

theorem Ordered.keep (ordered : Ordered a) (same : SameQueues a a') : Ordered a' where
  waiting := by
    rw [same.requests, same.nextRequest, same.served]
    exact ordered.waiting
  apart := by
    rw [same.requests]
    exact ordered.apart
  oneKey := by
    rw [same.requests]
    exact ordered.oneKey
  known := by
    rw [same.served, same.nextRequest]
    exact ordered.known
  once := by
    rw [same.served]
    exact ordered.once
  asked := by
    rw [same.ticks, same.given]
    exact ordered.asked
  order name := by
    rw [same.queued, servedFrom, same.given, same.requests]
    exact ordered.order name

/-! ## A socket is given -/

/-- A request that has neither a socket nor a place in a queue -/
structure Fresh (a : State) (r : Nat) : Prop where
  known : r < a.nextRequest
  notServed : r ∉ a.served
  notWaiting : ∀ name, r ∉ a.requests name

theorem served_onSocket (r s : Nat) (queue : Option JSString) (a : State) :
    (a.onSocket r s queue).served = a.served ++ [r] := by
  simp [served, onSocket]

theorem servedFrom_onSocket (r s : Nat) (queue : Option JSString) (a : State) (name : JSString) :
    (a.onSocket r s queue).servedFrom name =
      a.servedFrom name ++ (if queue = some name then [r] else []) := by
  simp only [servedFrom, onSocket, filter_append, map_append]
  by_cases same : queue = some name
  · simp [same]
  · simp [same]

theorem Single.onSocket (single : Single a) (fresh : Fresh a r) (s : Nat)
    (queue : Option JSString) : Single (a.onSocket r s queue) where
  waiting name r' mem := by
    obtain ⟨known, notServed⟩ := single.waiting name r' mem
    rw [served_onSocket, mem_append, mem_singleton, not_or]
    refine ⟨known, notServed, ?_⟩
    rintro rfl
    exact fresh.notWaiting name mem
  apart := single.apart
  oneKey := single.oneKey
  known r' mem := by
    rw [served_onSocket, mem_append, mem_singleton] at mem
    obtain mem | rfl := mem
    · exact single.known r' mem
    · exact fresh.known
  once := by
    rw [served_onSocket]
    refine nodup_append'.mpr ⟨single.once, nodup_singleton r, ?_⟩
    rw [disjoint_singleton]
    exact fresh.notServed
  asked r' s' mem := by
    obtain mem | mem := mem_append.mp mem
    · obtain ⟨g, here, facts⟩ := single.asked r' s' mem
      exact ⟨g, mem_append_left _ here, facts⟩
    rw [mem_singleton, Tick.onSocket.injEq] at mem
    obtain ⟨rfl, rfl⟩ := mem
    exact ⟨_, mem_append_right _ mem_cons_self, rfl, rfl⟩

theorem Single.take (single : Single a) {name : JSString} {rest : List Nat}
    (queue : a.requests name = r :: rest) :
    Single { a with requests := update a.requests name rest } ∧
      Fresh { a with requests := update a.requests name rest } r := by
  have here : r ∈ a.requests name := by
    rw [queue]
    exact mem_cons_self
  have apart := single.apart name
  rw [queue, nodup_cons] at apart
  -- what still waits, waited before
  have left {other : JSString} {r' : Nat} (mem : r' ∈ update a.requests name rest other) :
      r' ∈ a.requests other ∧ (other = name → r' ∈ rest) := by
    by_cases same : other = name
    · subst same
      rw [update_self] at mem
      rw [queue]
      exact ⟨mem_cons_of_mem r mem, fun _ => mem⟩
    rw [update_of_ne same] at mem
    exact ⟨mem, fun same' => absurd same' same⟩
  obtain ⟨known, notServed⟩ := single.waiting _ r here
  refine ⟨⟨?_, ?_, ?_, single.known, single.once, single.asked⟩, known, notServed, ?_⟩
  · exact fun other r' mem => single.waiting other r' (left mem).1
  · intro other
    by_cases same : other = name
    · subst same
      simp only [update_self]
      exact apart.2
    simp only [update_of_ne same]
    exact single.apart other
  · exact fun mem mem' => single.oneKey (left mem).1 (left mem').1
  intro other mem
  obtain ⟨mem, inRest⟩ := left mem
  exact apart.1 (inRest (single.oneKey mem here))

theorem Ordered.shift (ordered : Ordered a) (s : Nat) : Ordered (a.shift s) := by
  rw [State.shift]
  split
  · exact ordered
  rename_i r rest queue
  obtain ⟨single, fresh⟩ := ordered.toSingle.take queue
  refine ⟨single.onSocket fresh s _, ?_⟩
  intro name
  have order := ordered.order name
  rw [servedFrom_onSocket]
  by_cases same : name = a.nameOf s
  · subst same
    rw [queue] at order
    simp only [State.onSocket, update_self]
    rw [append_assoc]
    exact order
  have other : ¬(some (a.nameOf s) = some name) := fun same' => same (Option.some.inj same').symm
  rw [if_neg other]
  simp only [State.onSocket, update_of_ne same, append_nil]
  exact order

theorem Ordered.onSocket (ordered : Ordered a) (fresh : Fresh a r) (s : Nat) :
    Ordered (a.onSocket r s none) := by
  refine ⟨ordered.toSingle.onSocket fresh s none, ?_⟩
  intro name
  rw [servedFrom_onSocket, if_neg (by simp), append_nil]
  exact ordered.order name

theorem stable_ordered (config : Config) : Stable config Ordered where
  unlist _ ordered := ordered.keep ⟨rfl, rfl, rfl, rfl, rfl⟩
  createSocket _ _ ordered := ordered.keep ⟨rfl, rfl, rfl, rfl, rfl⟩
  shift _ _ _ ordered := ordered.shift _
  forget _ ordered := ordered.keep ⟨rfl, rfl, rfl, rfl, rfl⟩
  pool _ ordered := ordered.keep ⟨rfl, rfl, rfl, rfl, rfl⟩
  destroy _ ordered := ordered.keep ⟨rfl, rfl, rfl, rfl, rfl⟩

/-! ## A new request -/

section

variable (ordered : Ordered a)
include ordered

theorem Ordered.enter (request : Request) :
    Ordered (a.enter request) ∧ Fresh (a.enter request) a.nextRequest := by
  refine ⟨⟨⟨?_, ordered.apart, ordered.oneKey, ?_, ordered.once, ordered.asked⟩, ordered.order⟩,
    Nat.lt_succ_self _, ?_, ?_⟩
  · intro name r mem
    obtain ⟨known, notServed⟩ := ordered.waiting name r mem
    exact ⟨Nat.lt_succ_of_lt known, notServed⟩
  · exact fun r mem => Nat.lt_succ_of_lt (ordered.known r mem)
  · exact fun mem => Nat.lt_irrefl _ (ordered.known _ mem)
  · exact fun name mem => Nat.lt_irrefl _ (ordered.waiting name _ mem).1

theorem Ordered.enqueue (fresh : Fresh a r) (name : JSString) : Ordered { a with
    requests := update a.requests name (a.requests name ++ [r])
    queued := update a.queued name (a.queued name ++ [r]) } := by
  have members {other : JSString} {r' : Nat}
      (mem : r' ∈ update a.requests name (a.requests name ++ [r]) other) :
      r' ∈ a.requests other ∨ r' = r ∧ other = name := by
    by_cases same : other = name
    · subst same
      rw [update_self, mem_append, mem_singleton] at mem
      exact mem.imp_right fun same' => ⟨same', rfl⟩
    rw [update_of_ne same] at mem
    exact .inl mem
  refine ⟨⟨?_, ?_, ?_, ordered.known, ordered.once, ordered.asked⟩, ?_⟩
  · intro other r' mem
    obtain mem | ⟨rfl, rfl⟩ := members mem
    · exact ordered.waiting other r' mem
    · exact ⟨fresh.known, fresh.notServed⟩
  · intro other
    by_cases same : other = name
    · subst same
      simp only [update_self]
      refine nodup_append'.mpr ⟨ordered.apart _, nodup_singleton r, ?_⟩
      rw [disjoint_singleton]
      exact fresh.notWaiting _
    simp only [update_of_ne same]
    exact ordered.apart other
  · intro other other' r' mem mem'
    obtain old | ⟨rfl, rfl⟩ := members mem
    · obtain old' | ⟨rfl, -⟩ := members mem'
      · exact ordered.oneKey old old'
      · exact absurd old (fresh.notWaiting other)
    obtain old' | ⟨-, rfl⟩ := members mem'
    · exact absurd old' (fresh.notWaiting other')
    · rfl
  intro other
  have order := ordered.order other
  by_cases same : other = name
  · subst same
    simp only [update_self]
    rw [order, append_assoc]
    rfl
  simp only [update_of_ne same]
  exact order

theorem Ordered.addRequest (fresh : Fresh a r) (options : Options) :
    Ordered (a.addRequest config r options) := by
  rw [State.addRequest]
  split
  · rename_i s rest free
    have taken : Ordered { a with
        freeSockets := update a.freeSockets (getName options) rest } :=
      ordered.keep ⟨rfl, rfl, rfl, rfl, rfl⟩
    have fresh' : Fresh { a with
        freeSockets := update a.freeSockets (getName options) rest } r :=
      ⟨fresh.known, fresh.notServed, fresh.notWaiting⟩
    exact (taken.onSocket fresh' s).keep ⟨rfl, rfl, rfl, rfl, rfl⟩
  split
  · have made : Ordered (a.createSocket config options) := ordered.keep ⟨rfl, rfl, rfl, rfl, rfl⟩
    exact made.onSocket ⟨fresh.known, fresh.notServed, fresh.notWaiting⟩ a.nextSocket
  · exact ordered.enqueue fresh _

/-! ## Runs -/

theorem Ordered.nextTick (ticks : a.ticks = tick :: rest) : Ordered { a with ticks := rest } := by
  refine ⟨⟨ordered.waiting, ordered.apart, ordered.oneKey, ordered.known, ordered.once, ?_⟩,
    ordered.order⟩
  intro r s mem
  refine ordered.asked r s ?_
  rw [ticks]
  exact mem_cons_of_mem tick mem

end

theorem sameQueues_attach (r s : Nat) (a : State) : SameQueues a (a.attach r s) := by
  rw [attach_eq]
  split
  · exact ⟨rfl, rfl, rfl, rfl, rfl⟩
  · exact ⟨rfl, rfl, rfl, rfl, rfl⟩

theorem sameQueues_onIncoming (s r : Nat) (keepAlive : Bool) (a : State) :
    SameQueues a (a.onIncoming s r keepAlive) := by
  rw [onIncoming]
  split
  · exact ⟨rfl, rfl, rfl, rfl, rfl⟩
  · exact ⟨rfl, rfl, rfl, rfl, rfl⟩

theorem sameQueues_closeListener (s : Nat) (a : State) : SameQueues a (a.closeListener s) := by
  rw [closeListener]
  split
  · split
    · exact ⟨rfl, rfl, rfl, rfl, rfl⟩
    · exact ⟨rfl, rfl, rfl, rfl, rfl⟩
  · exact ⟨rfl, rfl, rfl, rfl, rfl⟩

theorem Ordered.responseOnEnd (ordered : Ordered a) (r s : Nat) :
    Ordered (a.responseOnEnd r s) := by
  rw [State.responseOnEnd]
  split
  · refine ⟨⟨ordered.waiting, ordered.apart, ordered.oneKey, ordered.known, ordered.once, ?_⟩,
      ordered.order⟩
    intro r' s' mem
    obtain mem | mem := mem_append.mp mem
    · exact ordered.asked r' s' mem
    · cases mem_singleton.mp mem
  · exact ordered.keep ⟨rfl, rfl, rfl, rfl, rfl⟩

/-- What holds of an agent at any time -/
structure Sound (config : Config) (a : State) : Prop where
  pooled : Pooled config a
  ordered : Ordered a

theorem Sound.new (config : Config) : Sound config .new := ⟨.new config, .new⟩

theorem Ordered.known_of_tick (ordered : Ordered a) (mem : Tick.onSocket r s ∈ a.ticks) :
    r < a.nextRequest := by
  obtain ⟨g, here, rfl, -⟩ := ordered.asked r s mem
  exact ordered.known _ (List.mem_map_of_mem here)

theorem Sound.runTick (sound : Sound config a) (ticks : a.ticks = tick :: rest) :
    Sound config ({ a with ticks := rest }.runTick config tick) := by
  obtain ⟨pooled, idle, old⟩ := sound.pooled.nextTick ticks
  have ordered := sound.ordered.nextTick ticks
  have freed : Sound config ({ a with ticks := rest }.emitFree config tick.socket) :=
    ⟨pooled.emitFree idle old, (stable_ordered config).emitFree pooled idle old ordered⟩
  cases tick with
  | free s => exact freed
  | onSocket r s =>
    have known : r < a.nextRequest := by
      have mem : Tick.onSocket r s ∈ a.ticks := by
        rw [ticks]
        exact mem_cons_self
      exact sound.ordered.known_of_tick mem
    rw [State.runTick]
    split
    · exact freed
    · exact ⟨pooled.attach idle old known, ordered.keep (sameQueues_attach r s _)⟩

theorem Sound.removeSocket (sound : Sound config a) (old : s < a.nextSocket) :
    Sound config (a.removeSocket config (free config 1) s) :=
  ⟨sound.pooled.removeSocket s (proper_free config 1),
    (stable_ordered config).removeSocket sound.pooled old 0 sound.ordered⟩

/-- Every step keeps the agent in order, with no condition on the action. -/
theorem Sound.step (sound : Sound config a) {action : Action}
    (stepped : a.step config env action = some a') : Sound config a' := by
  obtain ⟨pooled, ordered⟩ := id sound
  cases stepped_of_step stepped with
  | request options firstLine message =>
    obtain ⟨entered, fresh⟩ := ordered.enter (.new firstLine _)
    exact ⟨pooled.newRequest options firstLine message, entered.addRequest fresh options⟩
  | tick ticks => exact sound.runTick ticks
  | response =>
    exact ⟨(samePhases_onIncoming _ _ _ _).pooled pooled,
      ordered.keep (sameQueues_onIncoming _ _ _ _)⟩
  | responseEnd responded unended has =>
    exact ⟨pooled.responseOnEnd unended has, ordered.responseOnEnd _ _⟩
  | abort =>
    exact ⟨(samePhases_markAborted _ a).pooled pooled, ordered.keep ⟨rfl, rfl, rfl, rfl, rfl⟩⟩
  | abortSocket =>
    exact ⟨((samePhases_markAborted _ a).trans (samePhases_destroy _ _)).pooled pooled,
      ordered.keep ⟨rfl, rfl, rfl, rfl, rfl⟩⟩
  | destroy old =>
    exact ⟨(samePhases_destroy _ a).pooled pooled, ordered.keep ⟨rfl, rfl, rfl, rfl, rfl⟩⟩
  | close old destroyed listening =>
    rename_i s
    have closed := samePhases_markClosed s a
    have marked : Sound config (a.markClosed s) :=
      ⟨closed.pooled pooled, ordered.keep ⟨rfl, rfl, rfl, rfl, rfl⟩⟩
    have removed := marked.removeSocket old
    exact ⟨(samePhases_closeListener s _).pooled removed.pooled,
      removed.ordered.keep (sameQueues_closeListener s _)⟩
  | closeAlone old alone =>
    rename_i s
    have closed := samePhases_markClosed s a
    have marked : Ordered (a.markClosed s) := ordered.keep ⟨rfl, rfl, rfl, rfl, rfl⟩
    exact ⟨(samePhases_closeListener s _).pooled (closed.pooled pooled),
      marked.keep (sameQueues_closeListener s _)⟩
  | agentRemove listening message =>
    have removed := sound.removeSocket (pooled.known _ _ message).1
    exact ⟨(samePhases_leave _ _).pooled removed.pooled,
      removed.ordered.keep ⟨rfl, rfl, rfl, rfl, rfl⟩⟩
  | write | end_ =>
    exact ⟨(samePhases_pass _ _ _ _).pooled pooled, ordered.keep ⟨rfl, rfl, rfl, rfl, rfl⟩⟩

end IoJs.Agent.State
