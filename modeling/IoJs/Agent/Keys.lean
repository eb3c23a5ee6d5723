import IoJs.Agent.Queues

/-!
# Keys

`addRequest` counts and queues a request under the key of its own options. The socket that is
created for it is listed, and later looked up, under the key of these options with those of the
agent over them. A socket keeps its options, so there is one key for both if and only if the two are
the same text (`one_key_iff`).
-/

namespace IoJs.Agent

open IoJs.Buffer IoJs.Stream IoJs.RegExp IoJs.Http List

/-! ## The text of a key -/

/-- The host of a key -/
def Options.hostName (options : Options) : JSString :=
  if options.host ≠ [] then options.host else js "localhost"

/-- The texts between the colons of a key -/
def Options.pieces (options : Options) : List JSString :=
  options.hostName.splitOn (unit ':') ++ options.port.splitOn (unit ':') ++
    options.localAddress.splitOn (unit ':')

theorem splitOn_getName (options : Options) :
    (getName options).splitOn (unit ':') = options.pieces ++ [[]] := by
  have shape : getName options = options.hostName ++ unit ':' ::
      (options.port ++ unit ':' :: (options.localAddress ++ unit ':' :: [])) := by
    have colon : js ":" = [unit ':'] := by rfl
    rw [getName, colon]
    simp [Options.hostName]
  rw [shape, splitOn_append_cons_self, splitOn_append_cons_self,
    splitOn_append_cons_self, splitOn_nil, Options.pieces]
  simp

theorem getName_eq_iff {left right : Options} :
    getName left = getName right ↔ left.pieces = right.pieces := by
  constructor
  · intro same
    have split := congrArg (List.splitOn (unit ':')) same
    rw [splitOn_getName, splitOn_getName] at split
    exact append_cancel_right split
  intro same
  have join := congrArg (List.intercalate [unit ':']) (congrArg (· ++ [[]]) same)
  rw [← splitOn_getName, ← splitOn_getName, intercalate_splitOn, intercalate_splitOn]
    at join
  exact join

variable {options : Options}

namespace State

open Function (update update_of_ne update_self)

variable {config : Config} {env : Environment} {a a' b : State} {r s : Nat}
variable {name firstLine : JSString} {options : Options} {message : OutgoingMessage}

/-! ## What stays -/

/-- Sockets keep their options, and requests that are there join no queue. -/
structure Kept (a b : State) : Prop where
  nextSocket : a.nextSocket ≤ b.nextSocket
  nextRequest : a.nextRequest ≤ b.nextRequest
  options : ∀ s < a.nextSocket, (b.socket s).options = (a.socket s).options
  requests : ∀ name, ∀ r < a.nextRequest, r ∈ b.requests name → r ∈ a.requests name

theorem Kept.refl (a : State) : Kept a a :=
  ⟨Nat.le_refl _, Nat.le_refl _, fun _ _ => rfl, fun _ _ _ mem => mem⟩

theorem Kept.trans {c : State} (first : Kept a b) (second : Kept b c) : Kept a c where
  nextSocket := first.nextSocket.trans second.nextSocket
  nextRequest := first.nextRequest.trans second.nextRequest
  options s old := (second.options s (old.trans_le first.nextSocket)).trans (first.options s old)
  requests name r old mem :=
    first.requests name r old (second.requests name r (old.trans_le first.nextRequest) mem)

theorem Kept.of_same (phases : SamePhases a b) (requests : b.requests = a.requests) : Kept a b where
  nextSocket := phases.nextSocket.ge
  nextRequest := phases.nextRequest.ge
  options s _ := phases.options s
  requests name r _ mem := by rwa [requests] at mem

theorem Kept.of_socket {changed : Socket} (s : Nat) (a : State)
    (options : changed.options = (a.socket s).options) :
    Kept a { a with socket := update a.socket s changed } where
  nextSocket := Nat.le_refl _
  nextRequest := Nat.le_refl _
  options s' _ := field_update Socket.options options s'
  requests _ _ _ mem := mem

theorem Kept.nameOf (kept : Kept a b) (old : s < a.nextSocket) : b.nameOf s = a.nameOf s := by
  rw [State.nameOf, kept.options s old, State.nameOf]

theorem kept_createSocket (options : Options) (a : State) :
    Kept a (a.createSocket config options) where
  nextSocket := Nat.le_succ _
  nextRequest := Nat.le_refl _
  options s old := by rw [createSocket_socket_of_ne options (Nat.ne_of_lt old)]
  requests _ _ _ mem := mem

theorem kept_shift (s : Nat) (a : State) : Kept a (a.shift s) := by
  rw [shift]
  split
  · exact .refl a
  rename_i first rest queue
  refine ⟨Nat.le_refl _, Nat.le_refl _, fun _ _ => rfl, ?_⟩
  intro name r _ mem
  by_cases same : name = a.nameOf s
  · subst same
    simp only [onSocket, update_self] at mem
    rw [queue]
    exact mem_cons_of_mem first mem
  simp only [onSocket, update_of_ne same] at mem
  exact mem

theorem kept_unlist (s : Nat) (a : State) : Kept a (a.unlist s) :=
  ⟨Nat.le_refl _, Nat.le_refl _, fun _ _ => rfl, fun _ _ _ mem => mem⟩

theorem stable_kept (config : Config) (a : State) : Stable config (Kept a) where
  unlist s kept := kept.trans (kept_unlist s _)
  createSocket options _ kept := kept.trans (kept_createSocket options _)
  shift _ _ _ kept := kept.trans (kept_shift _ _)
  forget _ kept := kept.trans (.of_socket _ _ rfl)
  pool _ kept := kept.trans ⟨Nat.le_refl _, Nat.le_refl _, fun _ _ => rfl, fun _ _ _ mem => mem⟩
  destroy s kept := kept.trans (.of_socket s _ rfl)

theorem kept_newRequest (options : Options) (firstLine : JSString) (message : OutgoingMessage)
    (a : State) : Kept a (a.newRequest config options firstLine message) := by
  rw [newRequest]
  generalize Request.new firstLine _ = request
  have entered : Kept a (a.enter request) :=
    ⟨Nat.le_refl _, Nat.le_succ _, fun _ _ => rfl, fun _ _ _ mem => mem⟩
  rw [addRequest]
  split
  · exact entered.trans
      ⟨Nat.le_refl _, Nat.le_refl _, fun _ _ => rfl, fun _ _ _ mem => mem⟩
  split
  · exact entered.trans ((kept_createSocket options _).trans
      ⟨Nat.le_refl _, Nat.le_refl _, fun _ _ => rfl, fun _ _ _ mem => mem⟩)
  refine ⟨Nat.le_refl _, Nat.le_succ _, fun _ _ => rfl, ?_⟩
  intro name r old mem
  by_cases same : name = getName options
  · subst same
    simp only [update_self, mem_append, mem_singleton] at mem
    rcases mem with mem | rfl
    · exact mem
    · exact absurd old (Nat.lt_irrefl _)
  simp only [update_of_ne same] at mem
  exact mem

theorem kept_attach (r s : Nat) (a : State) : Kept a (a.attach r s) := by
  have held : Kept a (a.hold r s) := by
    refine ⟨Nat.le_refl _, Nat.le_refl _, fun s' _ => ?_, fun _ _ _ mem => mem⟩
    apply field_update Socket.options
    rfl
  rw [attach_eq]
  split
  · exact held.trans (.of_same (samePhases_pass _ _ _ _) rfl)
  · exact held

theorem Sound.kept_runTick (sound : Sound config a) {tick : Tick} {rest : List Tick}
    (ticks : a.ticks = tick :: rest) : Kept a ({ a with ticks := rest }.runTick config tick) := by
  obtain ⟨pooled, idle, old⟩ := sound.pooled.nextTick ticks
  have taken : Kept a { a with ticks := rest } :=
    ⟨Nat.le_refl _, Nat.le_refl _, fun _ _ => rfl, fun _ _ _ mem => mem⟩
  have freed : Kept a ({ a with ticks := rest }.emitFree config tick.socket) :=
    (stable_kept config a).emitFree pooled idle old taken
  cases tick with
  | free s => exact freed
  | onSocket r s =>
    rw [State.runTick]
    split
    · exact freed
    · exact taken.trans (kept_attach r s _)

theorem kept_responseOnEnd (r s : Nat) (a : State) : Kept a (a.responseOnEnd r s) := by
  rw [responseOnEnd]
  split
  · refine ⟨Nat.le_refl _, Nat.le_refl _, fun s' _ => ?_, fun _ _ _ mem => mem⟩
    apply field_update Socket.options
    rfl
  refine ⟨Nat.le_refl _, Nat.le_refl _, fun s' _ => ?_, fun _ _ _ mem => mem⟩
  apply field_update Socket.options
  rfl

/-- A step changes no socket's options, and queues no request that was there before. -/
theorem Sound.kept_step (sound : Sound config a) {action : Action}
    (stepped : a.step config env action = some a') : Kept a a' := by
  have pooled := sound.pooled
  cases stepped_of_step stepped with
  | request options firstLine message => exact kept_newRequest options firstLine message a
  | tick ticks => exact sound.kept_runTick ticks
  | response =>
    exact .of_same (samePhases_onIncoming _ _ _ _) (sameQueues_onIncoming _ _ _ _).requests
  | responseEnd => exact kept_responseOnEnd _ _ a
  | abort => exact .of_same (samePhases_markAborted _ a) rfl
  | abortSocket =>
    exact .of_same ((samePhases_markAborted _ a).trans (samePhases_destroy _ _)) rfl
  | destroy old => exact .of_same (samePhases_destroy _ a) rfl
  | close old destroyed listening =>
    rename_i s
    have closed := samePhases_markClosed s a
    have removed : Kept a ((a.markClosed s).removeSocket config (free config 1) s) :=
      (stable_kept config a).removeSocket (closed.pooled pooled) old 0 (.of_same closed rfl)
    exact removed.trans
      (.of_same (samePhases_closeListener s _) (sameQueues_closeListener s _).requests)
  | closeAlone old alone =>
    rename_i s
    exact (Kept.of_same (samePhases_markClosed s a) rfl).trans
      (.of_same (samePhases_closeListener s _) (sameQueues_closeListener s _).requests)
  | agentRemove listening message =>
    have removed := (stable_kept config a).removeSocket pooled (pooled.known _ _ message).1 0
      (.refl a)
    exact removed.trans (.of_same (samePhases_leave _ _) rfl)
  | write | end_ =>
    exact .of_same (samePhases_pass _ _ _ _) rfl

/-- What may happen later -/
abbrev Later (config : Config) (env : Environment) : State → State → Prop :=
  Library.Run (step config env) fun _ _ => True

theorem Sound.kept_later (sound : Sound config a) (later : Later config env a b) :
    Sound config b ∧ Kept a b := by
  refine later.invariant (fun b => Sound config b ∧ Kept a b) ⟨sound, .refl a⟩ ?_
  intro b b' action holds _ stepped
  exact ⟨holds.1.step stepped, holds.2.trans (holds.1.kept_step stepped)⟩

/-! ## The specification -/

/-- A socket is listed under a key, and whatever happens, it is looked up under this key. -/
structure Keyed (config : Config) (env : Environment) (name : JSString) (s : Nat) (b : State) :
    Prop where
  listed : s ∈ b.sockets name
  lookedUp : ∀ c, Later config env b c → c.nameOf s = name

/-- `addRequest` creates a socket: none is free, and there is room. -/
def Creates (config : Config) (options : Options) (a : State) : Prop :=
  a.freeSockets (getName options) = [] ∧ config.below (a.count (getName options)) = true

instance (options : Options) (a : State) : Decidable (Creates config options a) :=
  inferInstanceAs (Decidable (_ ∧ _))

/-- A request that makes `b` of `a` is counted and queued under the key of the socket that it gets,
whether this is a free one, a new one, or one that is created when it waits. -/
structure OneKey (config : Config) (env : Environment) (options : Options) (a b : State) :
    Prop where
  reused : ∀ s rest, a.freeSockets (getName options) = s :: rest →
    Keyed config env (getName options) s b
  created : Creates config options a → Keyed config env (getName options) a.nextSocket b
  queued : ∀ c, Later config env b c → ∀ s < c.nextSocket, a.nextRequest ∈ c.requests (c.nameOf s) →
      Keyed config env (getName options) c.nextSocket
        ((c.unlist s).createSocket config (c.socket s).options)

/-! ## The three ways to a socket -/

theorem Sound.keyed (sound : Sound config b) (mem : s ∈ b.sockets name) :
    Keyed config env name s b where
  listed := mem
  lookedUp c later := by
    obtain ⟨old, named⟩ := sound.pooled.listed name s (mem_append_left _ mem)
    rw [(sound.kept_later later).2.nameOf old, named]

theorem mem_sockets_of_free {rest : List Nat} (free : a.freeSockets (getName options) = s :: rest) :
    s ∈ (a.newRequest config options firstLine message).sockets (getName options) := by
  rw [newRequest, addRequest]
  split
  · rename_i s' rest' free'
    have same := free.symm.trans free'
    obtain ⟨rfl, -⟩ := List.cons.inj same
    simp only [update_self]
    exact mem_append_right _ mem_cons_self
  rename_i empty
  cases free.symm.trans empty

section

variable (sound : Sound config a)
include sound

theorem Sound.mem_sockets_of_creates (creates : Creates config options a) (name : JSString) :
    a.nextSocket ∈ (a.newRequest config options firstLine message).sockets name ↔
      name = getName (config.extend options) := by
  have new : a.nextSocket ∉ a.sockets name := by
    intro mem
    exact sound.pooled.ne_next (mem_append_left _ mem) rfl
  rw [newRequest]
  generalize Request.new firstLine _ = request
  have created : ((a.enter request).addRequest config a.nextRequest options).sockets =
      ((a.enter request).createSocket config options).sockets := by
    rw [addRequest]
    split
    · rename_i free
      cases creates.1.symm.trans free
    have room : config.below ((a.enter request).count (getName options)) = true := creates.2
    rw [if_pos room]
    rfl
  rw [created, mem_createSocket_sockets]
  constructor
  · rintro (mem | ⟨-, same⟩)
    · exact absurd mem new
    · exact same
  intro same
  exact .inr ⟨rfl, same⟩

theorem Sound.queue_newRequest
    (mem : a.nextRequest ∈ (a.newRequest config options firstLine message).requests name) :
    name = getName options := by
  have new : ∀ name, a.nextRequest ∉ a.requests name := by
    intro name waits
    exact Nat.lt_irrefl _ (sound.ordered.waiting name _ waits).1
  rw [newRequest, addRequest] at mem
  split at mem
  · exact absurd mem (new name)
  split at mem
  · exact absurd mem (new name)
  by_contra other
  simp only [update_of_ne other] at mem
  exact new name mem

theorem Sound.keyed_replacement (old : s < a.nextSocket) :
    Keyed config env (a.nameOf s) a.nextSocket
      ((a.unlist s).createSocket config (a.socket s).options) := by
  have stable := stable_ordered config
  have unlisted := sound.pooled.unlist s
  have created : Sound config ((a.unlist s).createSocket config (a.socket s).options) :=
    ⟨unlisted.createSocket _, stable.createSocket _ unlisted (stable.unlist s sound.ordered)⟩
  apply created.keyed
  have named := congrArg getName (sound.pooled.extended s old)
  exact mem_createSocket_sockets.mpr (.inr ⟨rfl, named.symm⟩)

theorem Sound.newRequest (options : Options) (firstLine : JSString)
    (message : OutgoingMessage) : Sound config (a.newRequest config options firstLine message) := by
  have stepped : a.step config .ascii (.request options firstLine message) =
      some (a.newRequest config options firstLine message) := rfl
  exact sound.step stepped

theorem Sound.oneKey_iff (options : Options) (firstLine : JSString) (message : OutgoingMessage) :
    OneKey config env options a (a.newRequest config options firstLine message) ↔
      (Creates config options a → (config.extend options).pieces = options.pieces) := by
  have after := sound.newRequest options firstLine message
  constructor
  · intro oneKey creates
    have mem := (oneKey.created creates).listed
    exact (getName_eq_iff.mp ((sound.mem_sockets_of_creates creates _).mp mem)).symm
  intro same
  refine ⟨?_, ?_, ?_⟩
  · intro s rest free
    exact after.keyed (mem_sockets_of_free free)
  · intro creates
    apply after.keyed
    exact (sound.mem_sockets_of_creates creates _).mpr (getName_eq_iff.mpr (same creates).symm)
  intro c later s old waits
  obtain ⟨sound', kept⟩ := after.kept_later later
  have known : a.nextRequest < (a.newRequest config options firstLine message).nextRequest := by
    rw [State.newRequest, State.addRequest]
    split
    · exact Nat.lt_succ_self _
    split
    · exact Nat.lt_succ_self _
    · exact Nat.lt_succ_self _
  have key := sound.queue_newRequest (kept.requests _ _ known waits)
  rw [← key]
  exact sound'.keyed_replacement old

end

/-! ## The theorem -/

/-- **A request is counted and queued under the key of its socket if and only if it gets no new one,
or the options of the agent leave the pieces of its key as they are.** -/
theorem one_key_iff {config : Config} {env : Environment} {a : State}
    (run : Library.Run (step config env) (fun _ _ => True) .new a) (options : Options)
    (firstLine : JSString) (message : OutgoingMessage) :
    OneKey config env options a (a.newRequest config options firstLine message) ↔
      (Creates config options a → (config.extend options).pieces = options.pieces) :=
  ((Sound.new config).kept_later run).1.oneKey_iff options firstLine message

end State

open State

/-- An agent with a port -/
def Config.withPort : Config :=
  { maxSockets := some 1
    maxFreeSockets := 256
    keepAlive := false
    host := none
    port := some (js "81")
    localAddress := none }

/-- The port of the request is that of the agent. -/
theorem one_key_of_port : OneKey .withPort .ascii ⟨js "a", js "81", []⟩ .new
    (State.new.newRequest .withPort ⟨js "a", js "81", []⟩ (js "GET / HTTP/1.1\r\n") .new) :=
  (one_key_iff .refl _ _ _).mpr (by decide)

/-- The port of the request is another one than that of the agent. -/
theorem not_one_key : ¬∀ (config : Config) (env : Environment) (a : State),
    Library.Run (step config env) (fun _ _ => True) .new a →
    ∀ (options : Options) (firstLine : JSString) (message : OutgoingMessage),
      OneKey config env options a (a.newRequest config options firstLine message) := by
  intro claim
  have oneKey :=
    claim .withPort .ascii .new .refl ⟨js "a", js "80", []⟩ (js "GET / HTTP/1.1\r\n") .new
  rw [(Sound.new .withPort).oneKey_iff] at oneKey
  exact absurd (oneKey (by decide)) (by decide)

end IoJs.Agent
