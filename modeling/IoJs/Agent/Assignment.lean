import IoJs.Agent.Queues

/-!
# To whom a socket is given

A socket that has been given to a request is its own until the request is over: first a tick says
so, and then the socket does (`Assigned.serving`). So nobody else is given the socket before. Nor is
a socket given away once it is destroyed, with one exception: `addRequest` takes the first socket of
the pool as it is, and that may have been destroyed while its 'close' has not come yet.
-/

namespace IoJs.Agent

open IoJs.Stream IoJs.RegExp IoJs.Http List
open Function (update update_of_ne update_self)

namespace State

variable {config : Config} {env : Environment} {a a' : State} {r s : Nat}
variable {r' : Nat} {rest : List Tick} {tick : Tick}

/-- A new request does not find a destroyed socket in the pool. -/
def findsWhole (a : State) : Action → Bool
  | .request options _ _ =>
    (a.freeSockets (getName options)).head?.all fun s => !(a.socket s).destroyed
  | _ => true

/-- A request has a socket, or is about to get it. -/
def Serving (a : State) (g : Given) : Prop :=
  a.isOver g.request = true ∨ .onSocket g.request g.socket ∈ a.ticks ∨
    (a.socket g.socket).httpMessage = some g.request

/-- What holds of the sockets that have been given away -/
structure Assigned (a : State) : Prop where
  serving : ∀ g ∈ a.given, Serving a g
  whole : ∀ g ∈ a.given, g.destroyed = false ∧ g.unfinished = []

theorem Assigned.new : Assigned .new :=
  ⟨nofun, fun _ mem => absurd mem not_mem_nil⟩

theorem Assigned.mono (assigned : Assigned a) (given : a'.given = a.given)
    (serving : ∀ g ∈ a.given, Serving a g → Serving a' g) : Assigned a' := by
  constructor
  · rw [given]
    exact fun g mem => serving g mem (assigned.serving g mem)
  rw [given]
  exact assigned.whole

theorem Serving.over_of_idle {g : Given} (serving : Serving a g) (idle : Idle a g.socket) :
    a.isOver g.request = true := by
  obtain ended | tick | message := serving
  · exact ended
  · exact absurd (List.mem_map_of_mem tick) idle.noTick
  have notLive := idle.notLive
  rw [live, message] at notLive
  have ended : (a.request g.request).ended = true := by simpa using notLive
  rw [isOver, ended, Bool.true_or]

section

variable (assigned : Assigned a)
include assigned

theorem Assigned.onSocket (idle : Idle a s)
    (whole : (a.socket s).destroyed = false) (r : Nat) (queue : Option JSString) :
    Assigned (a.onSocket r s queue) where
  serving g mem := by
    obtain mem | mem := mem_append.mp mem
    · obtain ended | tick | message := assigned.serving g mem
      · exact .inl ended
      · exact .inr (.inl (mem_append_left _ tick))
      · exact .inr (.inr message)
    rw [mem_singleton] at mem
    subst mem
    exact .inr (.inl (mem_append_right _ mem_cons_self))
  whole g mem := by
    obtain mem | mem := mem_append.mp mem
    · exact assigned.whole g mem
    rw [mem_singleton] at mem
    subst mem
    refine ⟨whole, ?_⟩
    rw [filter_eq_nil_iff]
    intro r' served
    obtain ⟨g, filtered, rfl⟩ := List.mem_map.mp served
    obtain ⟨earlier, here⟩ := mem_filter.mp filtered
    have same : g.socket = s := of_decide_eq_true here
    have ended := (assigned.serving g earlier).over_of_idle (same ▸ idle)
    rw [ended]
    simp

theorem Assigned.shift (idle : Idle a s)
    (whole : (a.socket s).destroyed = false) : Assigned (a.shift s) := by
  rw [State.shift]
  split
  · exact assigned
  rename_i r rest _
  have taken : Assigned { a with requests := update a.requests (a.nameOf s) rest } :=
    ⟨assigned.serving, assigned.whole⟩
  exact taken.onSocket ⟨idle.noTick, idle.notFree, idle.notLive⟩ whole _ _

theorem Assigned.createSocket (pooled : Pooled config a)
    (options : Options) : Assigned (a.createSocket config options) := by
  refine assigned.mono rfl ?_
  intro g _ serving
  obtain ended | tick | message := serving
  · exact .inl ended
  · exact .inr (.inl tick)
  have other : g.socket ≠ a.nextSocket := Nat.ne_of_lt (pooled.known _ _ message).1
  refine .inr (.inr ?_)
  rw [createSocket_socket_of_ne options other]
  exact message

theorem Assigned.forget (idle : Idle a s) : Assigned (a.forget s) := by
  refine assigned.mono rfl ?_
  intro g _ serving
  by_cases same : g.socket = s
  · exact .inl (serving.over_of_idle (same ▸ idle))
  obtain ended | tick | message := serving
  · exact .inl ended
  · exact .inr (.inl tick)
  refine .inr (.inr ?_)
  simp only [State.forget, update_of_ne same]
  exact message

theorem Assigned.keep (same : SamePhases a a') (given : a'.given = a.given)
    (aborted : ∀ r, (a.request r).aborted = true → (a'.request r).aborted = true) :
    Assigned a' := by
  refine assigned.mono given ?_
  intro g _ serving
  rw [Serving, same.ticks, same.httpMessage]
  refine serving.imp_left ?_
  rw [isOver, isOver, same.ended, Bool.or_eq_true, Bool.or_eq_true]
  exact Or.imp_right (aborted g.request)

end

theorem aborted_pass (r : Nat) (result : OutgoingMessage × List Piece) (own : OutgoingMessage)
    (a : State) (r' : Nat) :
    ((a.pass r result own).request r').aborted = (a.request r').aborted := by
  apply field_update Request.aborted
  rfl

theorem aborted_hold (r s : Nat) (a : State) (r' : Nat) :
    ((a.hold r s).request r').aborted = (a.request r').aborted := by
  apply field_update Request.aborted
  rfl

theorem aborted_onIncoming (s r : Nat) (keepAlive : Bool) (a : State) (r' : Nat) :
    ((a.onIncoming s r keepAlive).request r').aborted = (a.request r').aborted := by
  rw [onIncoming]
  split
  · rfl
  apply field_update Request.aborted
  rfl

theorem aborted_closeListener (s : Nat) (a : State) (r' : Nat) :
    ((a.closeListener s).request r').aborted = (a.request r').aborted := by
  rw [closeListener]
  split
  · split
    · apply field_update Request.aborted
      rfl
    · rfl
  · rfl

theorem aborted_markAborted (aborted : (a.request r').aborted = true) :
    ((a.markAborted r).request r').aborted = true := by
  by_cases same : r' = r
  · subst same
    simp only [markAborted, update_self]
  simp only [markAborted, update_of_ne same]
  exact aborted

theorem stable_assigned (config : Config) : Stable config Assigned where
  unlist _ assigned := ⟨assigned.serving, assigned.whole⟩
  createSocket options pooled assigned := assigned.createSocket pooled options
  shift idle _ whole assigned := assigned.shift idle whole
  forget idle assigned := assigned.forget idle
  pool _ assigned := ⟨assigned.serving, assigned.whole⟩
  destroy s assigned := assigned.keep (samePhases_destroy s _) rfl fun _ ended => ended

/-! ## Runs -/

section

variable (assigned : Assigned a)
include assigned

theorem Assigned.addRequest (pooled : Pooled config a) {options : Options}
    (finds : (a.freeSockets (getName options)).head?.all (fun s => !(a.socket s).destroyed) =
      true) :
    Assigned (a.addRequest config r options) := by
  rw [State.addRequest]
  split
  · rename_i s rest free
    obtain ⟨-, idle, -⟩ := pooled.takeFree free
    have whole : (a.socket s).destroyed = false := by
      rw [free] at finds
      simpa using finds
    have taken : Assigned { a with
        freeSockets := update a.freeSockets (getName options) rest } :=
      ⟨assigned.serving, assigned.whole⟩
    have given := taken.onSocket idle whole r none
    exact ⟨given.serving, given.whole⟩
  split
  · exact (assigned.createSocket pooled options).onSocket (pooled.idle_createSocket options)
      (destroyed_createSocket options) r none
  · exact ⟨assigned.serving, assigned.whole⟩

theorem Assigned.enter (ordered : Ordered a) (request : Request) : Assigned (a.enter request) := by
  refine assigned.mono rfl ?_
  intro g mem serving
  have known := ordered.known _ (List.mem_map_of_mem mem)
  have other : g.request ≠ a.nextRequest := Nat.ne_of_lt known
  have same : (a.enter request).isOver g.request = a.isOver g.request := by
    simp only [isOver, State.enter, update_of_ne other]
  obtain ended | rest := serving
  · exact .inl (same.trans ended)
  · exact .inr rest

theorem Assigned.attach
    (ticks : a.ticks = .onSocket r s :: rest) (idle : Idle { a with ticks := rest } s) :
    Assigned ({ a with ticks := rest }.attach r s) := by
  have held : Assigned ({ a with ticks := rest }.hold r s) := by
    refine assigned.mono rfl ?_
    intro g _ serving
    have keeps (r' : Nat) (ended : a.isOver r' = true) :
        ({ a with ticks := rest }.hold r s).isOver r' = true := by
      rw [isOver, aborted_hold, ended_hold]
      exact ended
    by_cases same : g.socket = s
    · subst same
      obtain ended | tick | message := serving
      · exact .inl (keeps _ ended)
      · rw [ticks, mem_cons] at tick
        obtain first | later := tick
        · rw [Tick.onSocket.injEq] at first
          refine .inr (.inr ?_)
          simp only [hold, update_self, first.1]
        · exact .inr (.inl later)
      have serving' : Serving { a with ticks := rest } g := .inr (.inr message)
      exact .inl (keeps _ (serving'.over_of_idle idle))
    obtain ended | tick | message := serving
    · exact .inl (keeps _ ended)
    · rw [ticks, mem_cons] at tick
      obtain first | later := tick
      · rw [Tick.onSocket.injEq] at first
        exact absurd first.2 same
      · exact .inr (.inl later)
    refine .inr (.inr ?_)
    simp only [hold, update_of_ne same]
    exact message
  rw [attach_eq]
  split
  · exact held.keep (samePhases_pass _ _ _ _) rfl fun r' => (aborted_pass _ _ _ _ r').trans
  · exact held

theorem Assigned.skip (ticks : a.ticks = tick :: rest)
    (ended : ∀ r s, tick = .onSocket r s → (a.request r).aborted = true) :
    Assigned { a with ticks := rest } := by
  refine assigned.mono rfl ?_
  intro g _ serving
  obtain isOver | here | message := serving
  · exact .inl isOver
  · rw [ticks, mem_cons] at here
    obtain first | later := here
    · have aborted := ended _ _ first.symm
      refine .inl ?_
      rw [isOver, Bool.or_eq_true]
      exact .inr aborted
    · exact .inr (.inl later)
  · exact .inr (.inr message)

theorem Assigned.runTick (pooled : Pooled config a) (ticks : a.ticks = tick :: rest) :
    Assigned ({ a with ticks := rest }.runTick config tick) := by
  obtain ⟨pooled', idle, old⟩ := pooled.nextTick ticks
  cases tick with
  | free s =>
    have skipped := assigned.skip ticks nofun
    exact (stable_assigned config).emitFree pooled' idle old skipped
  | onSocket r s =>
    rw [State.runTick]
    split
    · rename_i aborted
      have skipped := assigned.skip ticks fun r' s' same => by
        rw [Tick.onSocket.injEq] at same
        exact same.1 ▸ aborted
      exact (stable_assigned config).emitFree pooled' idle old skipped
    · exact assigned.attach ticks idle

end

theorem httpMessage_responseOnEnd (r s : Nat) (a : State) (s' : Nat) :
    ((a.responseOnEnd r s).socket s').httpMessage = (a.socket s').httpMessage := by
  rw [responseOnEnd]
  by_cases same : s' = s
  · subst same
    split
    · simp only [update_self]
    · simp only [update_self]
  split
  · simp only [update_of_ne same]
  · simp only [update_of_ne same]

theorem isOver_responseOnEnd (ended : a.isOver r' = true) :
    (a.responseOnEnd r s).isOver r' = true := by
  have request : (a.responseOnEnd r s).request = (a.finish r).request := by
    rw [responseOnEnd]
    split
    · rfl
    · rfl
  rw [isOver, request, finish]
  by_cases same : r' = r
  · subst same
    simp only [update_self, Bool.true_or]
  simp only [update_of_ne same]
  exact ended

theorem Assigned.responseOnEnd (assigned : Assigned a) (r s : Nat) :
    Assigned (a.responseOnEnd r s) := by
  refine assigned.mono ?_ ?_
  · rw [State.responseOnEnd]
    split
    · rfl
    · rfl
  intro g _ serving
  rw [Serving, httpMessage_responseOnEnd]
  obtain ended | tick | message := serving
  · exact .inl (isOver_responseOnEnd ended)
  · refine .inr (.inl ?_)
    rw [State.responseOnEnd]
    split
    · exact mem_append_left _ tick
    · exact tick
  · exact .inr (.inr message)

theorem Assigned.removeSocket (assigned : Assigned a) (pooled : Pooled config a)
    (old : s < a.nextSocket) : Assigned (a.removeSocket config (free config 1) s) :=
  (stable_assigned config).removeSocket pooled old 0 assigned

/-- One step keeps what holds of the sockets given away, if requests find whole ones in the pool. -/
theorem Assigned.step (assigned : Assigned a) (sound : Sound config a) {action : Action}
    (finds : a.findsWhole action = true) (stepped : a.step config env action = some a') :
    Assigned a' := by
  cases stepped_of_step stepped with
  | request =>
    exact (assigned.enter sound.ordered _).addRequest (sound.pooled.enter rfl) finds
  | tick ticks => exact assigned.runTick sound.pooled ticks
  | response =>
    exact assigned.keep (samePhases_onIncoming _ _ _ _) (sameQueues_onIncoming _ _ _ _).given
      fun r' => (aborted_onIncoming _ _ _ _ r').trans
  | responseEnd => exact assigned.responseOnEnd _ _
  | abort =>
    exact assigned.keep (samePhases_markAborted _ a) rfl fun _ => aborted_markAborted
  | abortSocket =>
    exact assigned.keep ((samePhases_markAborted _ a).trans (samePhases_destroy _ _)) rfl
      fun _ => aborted_markAborted
  | destroy old => exact assigned.keep (samePhases_destroy _ a) rfl fun _ aborted => aborted
  | close old destroyed listening =>
    rename_i s
    have closed := samePhases_markClosed s a
    have marked : Assigned (a.markClosed s) := assigned.keep closed rfl fun _ aborted => aborted
    have removed := marked.removeSocket (closed.pooled sound.pooled) old
    exact removed.keep (samePhases_closeListener s _) (sameQueues_closeListener s _).given
      fun r' => (aborted_closeListener s _ r').trans
  | closeAlone old alone =>
    rename_i s
    have marked : Assigned (a.markClosed s) :=
      assigned.keep (samePhases_markClosed s a) rfl fun _ aborted => aborted
    exact marked.keep (samePhases_closeListener s _) (sameQueues_closeListener s _).given
      fun r' => (aborted_closeListener s _ r').trans
  | agentRemove listening message =>
    have removed := assigned.removeSocket sound.pooled (sound.pooled.known _ _ message).1
    exact removed.keep (samePhases_leave _ _) rfl fun _ aborted => aborted
  | write | end_ =>
    exact assigned.keep (samePhases_pass _ _ _ _) rfl fun r' => (aborted_pass _ _ _ _ r').trans

/-- **Assignment of sockets.** In every run in which no new request finds a destroyed socket in the
pool: each socket that is given to a request is not destroyed, and those who had it before are over;
nobody is given two sockets; and those who had to wait for a key get theirs in the order in which
they came. -/
theorem assignment_of_run
    (run : Library.Run (step config env) (fun a action => a.findsWhole action = true) .new a) :
    (∀ g ∈ a.given, g.destroyed = false ∧ g.unfinished = []) ∧ (a.given.map Given.request).Nodup ∧
      ∀ name, a.queued name =
        (a.given.filter (·.queue = some name)).map Given.request ++ a.requests name := by
  have holds : Sound config a ∧ Assigned a := by
    refine run.invariant (fun a => Sound config a ∧ Assigned a) ⟨.new config, .new⟩ ?_
    intro a a' action holds finds stepped
    exact ⟨holds.1.step stepped, holds.2.step holds.1 finds stepped⟩
  exact ⟨holds.2.whole, holds.1.ordered.once, holds.1.ordered.order⟩

/-- **The pools of an agent**, in every run: a socket is listed once, under its own key, with no
response to come while it is free; two requests whose responses are to come have two sockets; nobody
is given two; and those who wait for a key get theirs in the order in which they came. -/
theorem pools_of_run {allowed : State → Action → Prop}
    (run : Library.Run (step config env) allowed .new a) :
    (∀ name, (a.sockets name ++ a.freeSockets name).Nodup ∧
        ∀ s ∈ a.sockets name ++ a.freeSockets name, a.nameOf s = name) ∧
      (∀ name, ∀ s ∈ a.freeSockets name, a.live s = false) ∧
      (∀ r r' s, (a.request r).socket = some s → (a.request r').socket = some s →
        (a.request r).ended = false → (a.request r').ended = false → r = r') ∧
      (a.given.map Given.request).Nodup ∧ ∀ name, a.queued name =
        (a.given.filter (·.queue = some name)).map Given.request ++ a.requests name := by
  obtain ⟨pooled, ordered⟩ := run.invariant (Sound config) (.new config) fun sound _ => sound.step
  refine ⟨fun name => ⟨pooled.nodup name, fun s mem => (pooled.listed name s mem).2⟩,
    pooled.freeNotLive, fun r r' s has has' open_ open' => ?_, ordered.once, ordered.order⟩
  have first := (pooled.current r s has).2 open_
  have second := (pooled.current r' s has').2 open'
  exact Option.some.inj (first.symm.trans second)

end State

open State

/-- An agent that keeps its connections -/
def Config.keeping : Config :=
  { maxSockets := none
    maxFreeSockets := 256
    keepAlive := true
    host := none
    port := none
    localAddress := none }

/-- A free socket is used again. -/
theorem assignment_of_two : ∃ a : State, a.given.map Given.socket = [0, 0] ∧
    (∀ g ∈ a.given, g.destroyed = false ∧ g.unfinished = []) ∧ (a.given.map Given.request).Nodup ∧
      ∀ name, a.queued name =
        (a.given.filter (·.queue = some name)).map Given.request ++ a.requests name := by
  obtain ⟨a, run, sockets⟩ := Library.Run.exists_of_exec
    (step .keeping .ascii) (fun a action => a.findsWhole action = true) .new
    (fun a => a.given.map Given.socket = [0, 0])
    [.get, .tick, .response 0 true, .responseEnd 0, .tick, .get] (by decide +kernel)
  exact ⟨a, sockets, assignment_of_run run⟩

/-- A free socket is destroyed, and given to a request before its 'close' comes. -/
theorem destroyed_given : ¬∀ (config : Config) (env : Environment) (a : State),
    Library.Run (step config env) (fun _ _ => True) .new a →
      (∀ g ∈ a.given, g.destroyed = false ∧ g.unfinished = []) ∧
        (a.given.map Given.request).Nodup ∧
        ∀ name, a.queued name =
          (a.given.filter (·.queue = some name)).map Given.request ++ a.requests name := by
  intro claim
  obtain ⟨a, run, given⟩ := Library.Run.exists_of_exec (step .keeping .ascii) (fun _ _ => True) .new
    (fun a => a.given.any (·.destroyed) = true)
    [.get, .tick, .response 0 true, .responseEnd 0, .tick, .destroy 0, .get] (by decide +kernel)
  obtain ⟨g, mem, destroyed⟩ := List.any_eq_true.mp given
  have whole := ((claim .keeping .ascii a run).1 g mem).1
  rw [destroyed] at whole
  cases whole

/-- A socket that waits for the next request -/
theorem pools_of_run_free : ∃ a : State, a.freeSockets (a.nameOf 0) = [0] ∧ a.live 0 = false := by
  obtain ⟨a, run, free⟩ := Library.Run.exists_of_exec (step .keeping .ascii) (fun _ _ => True) .new
    (fun a => a.freeSockets (a.nameOf 0) = [0])
    [.get, .tick, .response 0 true, .responseEnd 0, .tick] (by decide +kernel)
  exact ⟨a, free, (pools_of_run run).2.1 _ 0 (free ▸ mem_cons_self)⟩

end IoJs.Agent
