import IoJs.Agent.Pool

/-!
# Phases of a socket

At any time a socket is in one place: a tick is about it, or it is in the pool, or the exchange of a
request with its response is going on, or none of these. Whatever happens, it moves from one of
these places to another.
-/

namespace IoJs.Agent.State

open IoJs.Stream IoJs.RegExp IoJs.Http List
open Function (update update_of_ne update_self)

variable {config : Config} {env : Environment} {a a' : State} {s : Nat}
variable {tick : Tick} {name : JSString} {onFree : Nat → State → State} {r : Nat}

/-- The exchange of a request with its response is going on. -/
def live (a : State) (s : Nat) : Bool := (a.socket s).httpMessage.any fun r => !(a.request r).ended

/-- A socket is nowhere: it may be given away. -/
structure Idle (a : State) (s : Nat) : Prop where
  noTick : s ∉ a.ticks.map Tick.socket
  notFree : ∀ name, s ∉ a.freeSockets name
  notLive : a.live s = false

/-- What holds of an agent at any time -/
structure Pooled (config : Config) (a : State) : Prop where
  listed : ∀ name, ∀ s ∈ a.sockets name ++ a.freeSockets name, s < a.nextSocket ∧ a.nameOf s = name
  nodup : ∀ name, (a.sockets name ++ a.freeSockets name).Nodup
  extended : ∀ s < a.nextSocket, config.extend (a.socket s).options = (a.socket s).options
  ticking : ∀ s ∈ a.ticks.map Tick.socket, s < a.nextSocket
  once : (a.ticks.map Tick.socket).Nodup
  notFree : ∀ s ∈ a.ticks.map Tick.socket, ∀ name, s ∉ a.freeSockets name
  notLive : ∀ s ∈ a.ticks.map Tick.socket, a.live s = false
  freeNotLive : ∀ name, ∀ s ∈ a.freeSockets name, a.live s = false
  current : ∀ r s, (a.request r).socket = some s →
    s < a.nextSocket ∧ ((a.request r).ended = false → (a.socket s).httpMessage = some r)
  known : ∀ s r, (a.socket s).httpMessage = some r → s < a.nextSocket ∧ r < a.nextRequest

theorem Pooled.new (config : Config) : Pooled config .new where
  listed name s mem := absurd mem not_mem_nil
  nodup name := nodup_nil
  extended s less := absurd less (Nat.not_lt_zero s)
  ticking s mem := absurd mem not_mem_nil
  once := nodup_nil
  notFree s mem := absurd mem not_mem_nil
  notLive s mem := absurd mem not_mem_nil
  freeNotLive name s mem := absurd mem not_mem_nil
  current r s has := by cases has
  known s r has := by cases has

/-! ## What the phases do not depend on -/

/-- Two states that differ in nothing that the phases depend on -/
structure SamePhases (a a' : State) : Prop where
  sockets : a'.sockets = a.sockets
  freeSockets : a'.freeSockets = a.freeSockets
  ticks : a'.ticks = a.ticks
  nextSocket : a'.nextSocket = a.nextSocket
  nextRequest : a'.nextRequest = a.nextRequest
  options : ∀ s, (a'.socket s).options = (a.socket s).options
  httpMessage : ∀ s, (a'.socket s).httpMessage = (a.socket s).httpMessage
  socket : ∀ r, (a'.request r).socket = (a.request r).socket
  ended : ∀ r, (a'.request r).ended = (a.request r).ended

theorem SamePhases.live (same : SamePhases a a') (s : Nat) : a'.live s = a.live s := by
  simp [State.live, same.httpMessage, same.ended]

theorem SamePhases.pooled (same : SamePhases a a') (pooled : Pooled config a) :
    Pooled config a' where
  listed := by
    intro name s mem
    rw [same.sockets, same.freeSockets] at mem
    rw [same.nextSocket, nameOf, same.options]
    exact pooled.listed name s mem
  nodup name := by
    rw [same.sockets, same.freeSockets]
    exact pooled.nodup name
  extended s less := by
    rw [same.nextSocket] at less
    rw [same.options]
    exact pooled.extended s less
  ticking := by
    rw [same.ticks, same.nextSocket]
    exact pooled.ticking
  once := by
    rw [same.ticks]
    exact pooled.once
  notFree := by
    rw [same.ticks, same.freeSockets]
    exact pooled.notFree
  notLive := by
    simp only [same.ticks, same.live]
    exact pooled.notLive
  freeNotLive := by
    simp only [same.freeSockets, same.live]
    exact pooled.freeNotLive
  current r s has := by
    rw [same.socket] at has
    rw [same.nextSocket, same.ended, same.httpMessage]
    exact pooled.current r s has
  known s r has := by
    rw [same.httpMessage] at has
    rw [same.nextSocket, same.nextRequest]
    exact pooled.known s r has

theorem SamePhases.idle (same : SamePhases a a') (idle : Idle a s) : Idle a' s where
  noTick := by
    rw [same.ticks]
    exact idle.noTick
  notFree := by
    rw [same.freeSockets]
    exact idle.notFree
  notLive := (same.live s).trans idle.notLive

theorem field_update {α β : Type} {f : Nat → α} {n : Nat} {changed : α} (field : α → β)
    (kept : field changed = field (f n)) (n' : Nat) :
    field (update f n changed n') = field (f n') := by
  grind

theorem SamePhases.ofSocket (a : State) (s : Nat) {changed : Socket}
    (options : changed.options = (a.socket s).options)
    (httpMessage : changed.httpMessage = (a.socket s).httpMessage) :
    SamePhases a { a with socket := update a.socket s changed } :=
  ⟨rfl, rfl, rfl, rfl, rfl, field_update Socket.options options,
    field_update Socket.httpMessage httpMessage, fun _ => rfl, fun _ => rfl⟩

theorem SamePhases.ofRequest (a : State) (r : Nat) {changed : Request}
    (socket : changed.socket = (a.request r).socket) (ended : changed.ended = (a.request r).ended) :
    SamePhases a { a with request := update a.request r changed } :=
  ⟨rfl, rfl, rfl, rfl, rfl, fun _ => rfl, fun _ => rfl, field_update Request.socket socket,
    field_update Request.ended ended⟩

theorem SamePhases.refl (a : State) : SamePhases a a :=
  ⟨rfl, rfl, rfl, rfl, rfl, fun _ => rfl, fun _ => rfl, fun _ => rfl, fun _ => rfl⟩

theorem SamePhases.trans {a'' : State} (first : SamePhases a a') (second : SamePhases a' a'') :
    SamePhases a a'' where
  sockets := second.sockets.trans first.sockets
  freeSockets := second.freeSockets.trans first.freeSockets
  ticks := second.ticks.trans first.ticks
  nextSocket := second.nextSocket.trans first.nextSocket
  nextRequest := second.nextRequest.trans first.nextRequest
  options s := (second.options s).trans (first.options s)
  httpMessage s := (second.httpMessage s).trans (first.httpMessage s)
  socket r := (second.socket r).trans (first.socket r)
  ended r := (second.ended r).trans (first.ended r)

theorem samePhases_destroy (s : Nat) (a : State) : SamePhases a (a.destroy s) :=
  .ofSocket a s rfl rfl

theorem samePhases_pass (r : Nat) (result : OutgoingMessage × List Piece) (own : OutgoingMessage)
    (a : State) : SamePhases a (a.pass r result own) := by
  have first : SamePhases a { a with
      request := update a.request r
        { a.request r with
          message := result.1
          passed := (a.request r).passed ++ result.2
          own } } := .ofRequest a r rfl rfl
  rw [pass]
  cases (a.request r).socket with
  | none => exact first
  | some s => exact first.trans (.ofSocket _ s rfl rfl)

theorem samePhases_closeListener (s : Nat) (a : State) : SamePhases a (a.closeListener s) := by
  rw [closeListener]
  split
  · split
    · exact .ofRequest a _ rfl rfl
    · exact .refl a
  · exact .refl a

/-! ## The functions of the agent -/

theorem Pooled.addTick (pooled : Pooled config a) (idle : Idle a tick.socket)
    (old : tick.socket < a.nextSocket) :
    Pooled config { a with ticks := a.ticks ++ [tick] } := by
  have members (s : Nat) : s ∈ (a.ticks ++ [tick]).map Tick.socket ↔
      s ∈ a.ticks.map Tick.socket ∨ s = tick.socket := by
    simp
  refine ⟨pooled.listed, pooled.nodup, pooled.extended, ?_, ?_, ?_, ?_, pooled.freeNotLive,
    pooled.current, pooled.known⟩
  · intro s mem
    obtain mem | rfl := (members s).mp mem
    · exact pooled.ticking s mem
    · exact old
  · have apart : List.Disjoint (a.ticks.map Tick.socket) [tick.socket] := by
      rw [disjoint_singleton]
      exact idle.noTick
    simpa using nodup_append'.mpr ⟨pooled.once, nodup_singleton _, apart⟩
  · intro s mem
    obtain mem | rfl := (members s).mp mem
    · exact pooled.notFree s mem
    · exact idle.notFree
  intro s mem
  obtain mem | rfl := (members s).mp mem
  · exact pooled.notLive s mem
  · exact idle.notLive

theorem Pooled.onSocket (pooled : Pooled config a) (idle : Idle a s) (old : s < a.nextSocket)
    (r : Nat) (queue : Option JSString) : Pooled config (a.onSocket r s queue) := by
  have same : SamePhases { a with ticks := a.ticks ++ [.onSocket r s] } (a.onSocket r s queue) :=
    ⟨rfl, rfl, rfl, rfl, rfl, fun _ => rfl, fun _ => rfl, fun _ => rfl, fun _ => rfl⟩
  have more : Pooled config { a with ticks := a.ticks ++ [.onSocket r s] } :=
    pooled.addTick idle old
  exact same.pooled more

theorem Pooled.ne_next (pooled : Pooled config a)
    (mem : s ∈ a.sockets name ++ a.freeSockets name) : s ≠ a.nextSocket := by
  have old := (pooled.listed name s mem).1
  omega

section

variable (options : Options)

theorem createSocket_socket_of_ne (other : s ≠ a.nextSocket) :
    (a.createSocket config options).socket s = a.socket s :=
  update_of_ne other _ _

theorem createSocket_socket_self :
    (a.createSocket config options).socket a.nextSocket = .new (config.extend options) :=
  update_self _ _ _

theorem destroyed_createSocket :
    ((a.createSocket config options).socket a.nextSocket).destroyed = false := by
  rw [createSocket_socket_self]
  rfl

theorem createSocket_live (s : Nat) :
    (a.createSocket config options).live s = true → a.live s = true := by
  intro isLive
  by_cases same : s = a.nextSocket
  · subst same
    rw [live, createSocket_socket_self] at isLive
    cases isLive
  rw [live, createSocket_socket_of_ne options same] at isLive
  exact isLive

end

theorem mem_createSocket_sockets {options : Options} :
    s ∈ (a.createSocket config options).sockets name ↔
      s ∈ a.sockets name ∨ s = a.nextSocket ∧ name = getName (config.extend options) := by
  rw [createSocket]
  by_cases same : name = getName (config.extend options)
  · subst same
    simp
  · simp [same]

theorem Pooled.createSocket (pooled : Pooled config a) (options : Options) :
    Pooled config (a.createSocket config options) where
  listed name s mem := by
    have size : (a.createSocket config options).nextSocket = a.nextSocket + 1 := rfl
    rw [mem_append, mem_createSocket_sockets, or_right_comm, ← mem_append] at mem
    obtain mem | ⟨rfl, rfl⟩ := mem
    · obtain ⟨old, named⟩ := pooled.listed name s mem
      rw [nameOf, createSocket_socket_of_ne options (pooled.ne_next mem), size]
      exact ⟨by omega, named⟩
    rw [nameOf, createSocket_socket_self, size]
    exact ⟨by omega, rfl⟩
  nodup name := by
    have all := pooled.nodup name
    have fresh : a.nextSocket ∉ a.sockets name ++ a.freeSockets name := fun mem =>
      pooled.ne_next mem rfl
    rw [State.createSocket]
    by_cases same : name = getName (config.extend options)
    · subst same
      simp only [update_self]
      have perm : (a.sockets (getName (config.extend options)) ++ [a.nextSocket] ++
          a.freeSockets (getName (config.extend options))).Perm
          (a.nextSocket :: (a.sockets (getName (config.extend options)) ++
            a.freeSockets (getName (config.extend options)))) := by
        simp
      exact perm.nodup_iff.mpr (nodup_cons.mpr ⟨fresh, all⟩)
    simp only [update_of_ne same]
    exact all
  extended s less := by
    have size : (a.createSocket config options).nextSocket = a.nextSocket + 1 := rfl
    by_cases same : s = a.nextSocket
    · subst same
      rw [createSocket_socket_self]
      exact config.extend_extend options
    rw [createSocket_socket_of_ne options same]
    exact pooled.extended s (by omega)
  ticking s mem := Nat.lt_succ_of_lt (pooled.ticking s mem)
  once := pooled.once
  notFree := pooled.notFree
  notLive s mem := by
    have notLive := pooled.notLive s mem
    rw [← Bool.not_eq_true] at notLive ⊢
    exact fun isLive => notLive (createSocket_live options s isLive)
  freeNotLive name s mem := by
    have notLive := pooled.freeNotLive name s mem
    rw [← Bool.not_eq_true] at notLive ⊢
    exact fun isLive => notLive (createSocket_live options s isLive)
  current r s has := by
    obtain ⟨old, current⟩ := pooled.current r s has
    have other : s ≠ a.nextSocket := by omega
    rw [createSocket_socket_of_ne options other]
    exact ⟨Nat.lt_succ_of_lt old, current⟩
  known s r has := by
    by_cases same : s = a.nextSocket
    · subst same
      rw [createSocket_socket_self] at has
      cases has
    rw [createSocket_socket_of_ne options same] at has
    obtain ⟨old, known⟩ := pooled.known s r has
    exact ⟨Nat.lt_succ_of_lt old, known⟩

theorem Pooled.idle_createSocket (pooled : Pooled config a) (options : Options) :
    Idle (a.createSocket config options) a.nextSocket where
  noTick mem := Nat.lt_irrefl _ (pooled.ticking _ mem)
  notFree name mem := pooled.ne_next (mem_append_right (a.sockets name) mem) rfl
  notLive := by
    rw [live, createSocket_socket_self]
    rfl

theorem sublist_unlist (s : Nat) (a : State) (name : JSString) :
    ((a.unlist s).sockets name).Sublist (a.sockets name) ∧
      ((a.unlist s).freeSockets name).Sublist (a.freeSockets name) := by
  simp only [unlist]
  by_cases same : name = a.nameOf s
  · subst same
    constructor
    · simpa using erase_sublist
    split
    · simpa using erase_sublist
    · exact List.Sublist.refl _
  constructor
  · rw [update_of_ne same]
  split
  · rw [update_of_ne same]
  · exact List.Sublist.refl _

theorem Pooled.unlist (pooled : Pooled config a) (s : Nat) : Pooled config (a.unlist s) where
  listed name s' mem := by
    obtain ⟨used, free⟩ := sublist_unlist s a name
    exact pooled.listed name s' ((used.append free).subset mem)
  nodup name := by
    obtain ⟨used, free⟩ := sublist_unlist s a name
    exact (pooled.nodup name).sublist (used.append free)
  extended := pooled.extended
  ticking := pooled.ticking
  once := pooled.once
  notFree s' mem name isFree :=
    pooled.notFree s' mem name ((sublist_unlist s a name).2.subset isFree)
  notLive := pooled.notLive
  freeNotLive name s' isFree :=
    pooled.freeNotLive name s' ((sublist_unlist s a name).2.subset isFree)
  current := pooled.current
  known := pooled.known

theorem Idle.unlist (idle : Idle a s) (s' : Nat) : Idle (a.unlist s') s where
  noTick := idle.noTick
  notFree name isFree := idle.notFree name ((sublist_unlist s' a name).2.subset isFree)
  notLive := idle.notLive

theorem Pooled.not_mem_unlist (pooled : Pooled config a) (s : Nat) :
    s ∉ (a.unlist s).sockets (a.nameOf s) := by
  have nodup := (nodup_append'.mp (pooled.nodup (a.nameOf s))).1
  simpa [State.unlist] using nodup.not_mem_erase

theorem Pooled.shift (pooled : Pooled config a) (idle : Idle a s) (old : s < a.nextSocket) :
    Pooled config (a.shift s) := by
  rw [State.shift]
  split
  · exact pooled
  rename_i r rest _
  have taken : Pooled config { a with requests := update a.requests (a.nameOf s) rest } :=
    ⟨pooled.listed, pooled.nodup, pooled.extended, pooled.ticking, pooled.once, pooled.notFree,
      pooled.notLive, pooled.freeNotLive, pooled.current, pooled.known⟩
  exact taken.onSocket ⟨idle.noTick, idle.notFree, idle.notLive⟩ old _ _

/-- A listener that gives away a socket that is nowhere -/
def Proper (config : Config) (onFree : Nat → State → State) : Prop :=
  ∀ (a : State) (s : Nat), Pooled config a → Idle a s → s < a.nextSocket →
    Pooled config (onFree s a)

theorem Pooled.removeSocket (pooled : Pooled config a) (s : Nat) (proper : Proper config onFree) :
    Pooled config (a.removeSocket config onFree s) := by
  have unlisted := pooled.unlist s
  rw [State.removeSocket]
  split
  · exact unlisted
  · exact proper _ _ (unlisted.createSocket _) (unlisted.idle_createSocket _) (Nat.lt_succ_self _)

theorem live_forget {s' : Nat} (isLive : (a.forget s).live s' = true) : a.live s' = true := by
  by_cases same : s' = s
  · subst same
    rw [live, State.forget] at isLive
    simp at isLive
  rw [live, State.forget] at isLive
  simp only [update_of_ne same] at isLive
  exact isLive

theorem Pooled.forget (pooled : Pooled config a) (idle : Idle a s) :
    Pooled config (a.forget s) := by
  have options (s' : Nat) : ((a.forget s).socket s').options = (a.socket s').options := by
    apply field_update Socket.options
    rfl
  refine ⟨?_, pooled.nodup, ?_, pooled.ticking, pooled.once, pooled.notFree, ?_, ?_, ?_, ?_⟩
  · intro name s' mem
    rw [nameOf, options]
    exact pooled.listed name s' mem
  · intro s' less
    rw [options]
    exact pooled.extended s' less
  · intro s' mem
    have notLive := pooled.notLive s' mem
    rw [← Bool.not_eq_true] at notLive ⊢
    exact fun isLive => notLive (live_forget isLive)
  · intro name s' mem
    have notLive := pooled.freeNotLive name s' mem
    rw [← Bool.not_eq_true] at notLive ⊢
    exact fun isLive => notLive (live_forget isLive)
  · intro r s' has
    obtain ⟨old, current⟩ := pooled.current r s' has
    refine ⟨old, fun unended => ?_⟩
    have message := current unended
    by_cases same : s' = s
    · -- then its exchange would be going on
      subst same
      have isLive : a.live s' = true := by
        have unended : (a.request r).ended = false := unended
        rw [live, message]
        simp [unended]
      simp [idle.notLive] at isLive
    simp only [State.forget, update_of_ne same]
    exact message
  intro s' r has
  by_cases same : s' = s
  · subst same
    simp [State.forget] at has
  simp only [State.forget, update_of_ne same] at has
  exact pooled.known s' r has

theorem Idle.forget (idle : Idle a s) : Idle (a.forget s) s where
  noTick := idle.noTick
  notFree := idle.notFree
  notLive := by
    rw [live, State.forget]
    simp

/-- An idle socket that no request uses may be put into the pool. -/
theorem Pooled.pool (pooled : Pooled config a) (idle : Idle a s) (old : s < a.nextSocket)
    (unused : s ∉ a.sockets (a.nameOf s)) : Pooled config (a.pool s) := by
  have members (name : JSString) (s' : Nat) :
      s' ∈ (a.pool s).freeSockets name ↔ s' ∈ a.freeSockets name ∨ s' = s ∧ name = a.nameOf s := by
    rw [State.pool]
    by_cases same : name = a.nameOf s
    · subst same
      simp
    · simp [same]
  refine ⟨?_, ?_, pooled.extended, pooled.ticking, pooled.once, ?_, pooled.notLive, ?_,
    pooled.current, pooled.known⟩
  · intro name s' mem
    rw [mem_append, members, ← or_assoc, ← mem_append] at mem
    obtain mem | ⟨rfl, rfl⟩ := mem
    · exact pooled.listed name s' mem
    · exact ⟨old, rfl⟩
  · intro name
    rw [State.pool]
    by_cases same : name = a.nameOf s
    · subst same
      simp only [update_self]
      have fresh : s ∉ a.sockets (a.nameOf s) ++ a.freeSockets (a.nameOf s) := by
        simpa using ⟨unused, idle.notFree _⟩
      rw [← append_assoc]
      exact (perm_append_singleton _ _).nodup_iff.mpr
        (nodup_cons.mpr ⟨fresh, pooled.nodup _⟩)
    simp only [update_of_ne same]
    exact pooled.nodup name
  · intro s' mem name isFree
    obtain isFree | ⟨rfl, -⟩ := (members name s').mp isFree
    · exact pooled.notFree s' mem name isFree
    · exact idle.noTick mem
  intro name s' isFree
  obtain isFree | ⟨rfl, -⟩ := (members name s').mp isFree
  · exact pooled.freeNotLive name s' isFree
  · exact idle.notLive

theorem removeSocket_of_empty
    (empty : a.requests (a.nameOf s) = []) : a.removeSocket config onFree s = a.unlist s := by
  exact if_pos empty

theorem nameOf_forget (s s' : Nat) (a : State) : (a.forget s).nameOf s' = a.nameOf s' := by
  have options : ((a.forget s).socket s').options = (a.socket s').options := by
    apply field_update Socket.options
    rfl
  rw [nameOf, options, nameOf]

theorem free_pool_empty
    (notGiven : ¬((a.socket s).destroyed = false ∧ a.requests (a.nameOf s) ≠ []))
    (keep : a.keepable config s = true) : (a.forget s).requests ((a.forget s).nameOf s) = [] := by
  rw [keepable, Bool.and_eq_true, Bool.and_eq_true, Bool.not_eq_true'] at keep
  have empty : a.requests (a.nameOf s) = [] := by grind
  rw [nameOf_forget]
  exact empty

theorem proper_free (config : Config) (depth : Nat) : Proper config (free config depth) := by
  induction depth with
  | zero =>
    intro a s pooled _ _
    exact pooled
  | succ depth ih =>
    intro a s pooled idle old
    rw [free]
    split
    · exact pooled.shift idle old
    rename_i notGiven
    have removed : Pooled config ((a.removeSocket config (free config depth) s).destroy s) :=
      (samePhases_destroy s _).pooled (pooled.removeSocket s ih)
    split
    · rename_i keep
      split
      · exact removed
      have forgotten := pooled.forget idle
      rw [removeSocket_of_empty (free_pool_empty notGiven keep)]
      exact (forgotten.unlist s).pool (idle.forget.unlist s) old (forgotten.not_mem_unlist s)
    · exact removed

/-! ## What `removeSocket` and 'free' come down to -/

/-- `removeSocket`, with what becomes of the new socket: it gets the first pending request. -/
def replace (config : Config) (s : Nat) (a : State) : State :=
  if a.requests (a.nameOf s) = [] then a.unlist s
  else ((a.unlist s).createSocket config (a.socket s).options).shift a.nextSocket

theorem Pooled.nameOf_createSocket (pooled : Pooled config a) (old : s < a.nextSocket) :
    (a.createSocket config (a.socket s).options).nameOf a.nextSocket = a.nameOf s := by
  rw [nameOf, createSocket_socket_self, nameOf]
  exact congrArg getName (pooled.extended s old)

theorem Pooled.removeSocket_eq (pooled : Pooled config a) (old : s < a.nextSocket) (depth : Nat) :
    a.removeSocket config (free config (depth + 1)) s = a.replace config s := by
  by_cases empty : a.requests (a.nameOf s) = []
  · rw [removeSocket_of_empty empty, replace, if_pos empty]
  have named : ((a.unlist s).createSocket config (a.socket s).options).nameOf a.nextSocket =
      a.nameOf s := (pooled.unlist s).nameOf_createSocket old
  have whole : (((a.unlist s).createSocket config (a.socket s).options).socket
      a.nextSocket).destroyed = false := destroyed_createSocket _
  rw [replace, if_neg empty, State.removeSocket]
  refine (if_neg empty).trans ?_
  refine if_pos ⟨whole, ?_⟩
  exact named.symm ▸ empty

/-- What is kept by everything that `removeSocket` and the listener to 'free' do -/
structure Stable (config : Config) (I : State → Prop) : Prop where
  unlist : ∀ {a : State} (s : Nat), I a → I (a.unlist s)
  createSocket : ∀ {a : State} (options : Options), Pooled config a → I a →
    I (a.createSocket config options)
  shift : ∀ {a : State} {s : Nat}, Idle a s → s < a.nextSocket → (a.socket s).destroyed = false →
    I a → I (a.shift s)
  forget : ∀ {a : State} {s : Nat}, Idle a s → I a → I (a.forget s)
  pool : ∀ {a : State} (s : Nat), I a → I (a.pool s)
  destroy : ∀ {a : State} (s : Nat), I a → I (a.destroy s)

section

variable {I : State → Prop}

section

variable (stable : Stable config I) (pooled : Pooled config a)
include stable pooled

theorem Stable.replace (holds : I a) : I (a.replace config s) := by
  have unlisted := pooled.unlist s
  rw [State.replace]
  split
  · exact stable.unlist s holds
  exact stable.shift (unlisted.idle_createSocket _) (Nat.lt_succ_self _)
    (destroyed_createSocket _) (stable.createSocket _ unlisted (stable.unlist s holds))

theorem Stable.removeSocket (old : s < a.nextSocket) (depth : Nat) (holds : I a) :
    I (a.removeSocket config (free config (depth + 1)) s) := by
  rw [pooled.removeSocket_eq old]
  exact stable.replace pooled holds

theorem Stable.emitFree (idle : Idle a s)
    (old : s < a.nextSocket) (holds : I a) : I (a.emitFree config s) := by
  have removed : I ((a.removeSocket config (free config 1) s).destroy s) :=
    stable.destroy s (stable.removeSocket pooled old 0 holds)
  rw [State.emitFree]
  split
  · rw [free]
    split
    · rename_i give
      exact stable.shift idle old give.1 holds
    rename_i notGiven
    split
    · rename_i keep
      split
      · exact removed
      rw [removeSocket_of_empty (free_pool_empty notGiven keep)]
      exact stable.pool s (stable.unlist s (stable.forget idle holds))
    · exact removed
  · exact holds

end

end

section

variable (pooled : Pooled config a)
include pooled

theorem Pooled.emitFree (idle : Idle a s) (old : s < a.nextSocket) :
    Pooled config (a.emitFree config s) := by
  rw [State.emitFree]
  split
  · exact proper_free config 2 a s pooled idle old
  · exact pooled

theorem Pooled.takeFree {rest : List Nat} (free : a.freeSockets name = s :: rest) :
    Pooled config { a with freeSockets := update a.freeSockets name rest } ∧
      Idle { a with freeSockets := update a.freeSockets name rest } s ∧ s < a.nextSocket ∧
      s ∉ a.sockets name ∧ a.nameOf s = name := by
  have mem : s ∈ a.freeSockets name := by simp [free]
  obtain ⟨old, named⟩ := pooled.listed name s (mem_append_right _ mem)
  have all := pooled.nodup name
  rw [free] at all
  obtain ⟨usedNodup, freeNodup, apart⟩ := nodup_append'.mp all
  have left (other : JSString) (s' : Nat)
      (mem : s' ∈ update a.freeSockets name rest other) : s' ∈ a.freeSockets other := by
    by_cases same : other = name
    · subst same
      rw [update_self] at mem
      rw [free]
      exact mem_cons_of_mem s mem
    rw [update_of_ne same] at mem
    exact mem
  refine ⟨?_, ?_, old, ?_, named⟩
  · refine ⟨?_, ?_, pooled.extended, pooled.ticking, pooled.once, ?_, pooled.notLive, ?_,
      pooled.current, pooled.known⟩
    · intro other s' mem
      obtain mem | mem := mem_append.mp mem
      · exact pooled.listed other s' (mem_append_left _ mem)
      · exact pooled.listed other s' (mem_append_right _ (left other s' mem))
    · intro other
      by_cases same : other = name
      · subst same
        simpa using all.sublist ((List.Sublist.refl _).append (sublist_cons_self s rest))
      simp only [update_of_ne same]
      exact pooled.nodup other
    · intro s' mem other isFree
      exact pooled.notFree s' mem other (left other s' isFree)
    intro other s' isFree
    exact pooled.freeNotLive other s' (left other s' isFree)
  · refine ⟨fun ticking => pooled.notFree s ticking name mem, ?_, pooled.freeNotLive name s mem⟩
    intro other isFree
    by_cases same : other = name
    · subst same
      simp only [update_self] at isFree
      exact (nodup_cons.mp freeNodup).1 isFree
    simp only [update_of_ne same] at isFree
    have named' := (pooled.listed other s (mem_append_right _ isFree)).2
    exact same (named'.symm.trans named)
  intro used
  exact apart used mem_cons_self

theorem Pooled.use (old : s < a.nextSocket)
    (named : a.nameOf s = name) (unused : s ∉ a.sockets name ++ a.freeSockets name) :
    Pooled config { a with sockets := update a.sockets name (a.sockets name ++ [s]) } := by
  refine ⟨?_, ?_, pooled.extended, pooled.ticking, pooled.once, pooled.notFree, pooled.notLive,
    pooled.freeNotLive, pooled.current, pooled.known⟩
  · intro other s' mem
    by_cases same : other = name
    · subst same
      simp only [update_self, append_assoc, singleton_append] at mem
      obtain mem | mem := mem_append.mp mem
      · exact pooled.listed _ s' (mem_append_left _ mem)
      obtain rfl | mem := mem_cons.mp mem
      · exact ⟨old, named⟩
      · exact pooled.listed _ s' (mem_append_right _ mem)
    simp only [update_of_ne same] at mem
    exact pooled.listed other s' mem
  intro other
  by_cases same : other = name
  · subst same
    simpa using perm_middle.nodup_iff.mpr (nodup_cons.mpr ⟨unused, pooled.nodup _⟩)
  simp only [update_of_ne same]
  exact pooled.nodup other

theorem Pooled.addRequest (r : Nat) (options : Options) :
    Pooled config (a.addRequest config r options) := by
  rw [State.addRequest]
  split
  · rename_i s rest free
    obtain ⟨taken, idle, old, unused, named⟩ := pooled.takeFree free
    refine (taken.onSocket idle old r none).use old named ?_
    simpa using ⟨unused, idle.notFree _⟩
  split
  · exact (pooled.createSocket options).onSocket (pooled.idle_createSocket options)
      (Nat.lt_succ_self _) r none
  exact ⟨pooled.listed, pooled.nodup, pooled.extended, pooled.ticking, pooled.once,
    pooled.notFree, pooled.notLive, pooled.freeNotLive, pooled.current, pooled.known⟩

/-! ## The functions of a request -/

theorem Pooled.live_enter (request : Request) (s : Nat) : (a.enter request).live s = a.live s := by
  simp only [live, State.enter]
  cases has : (a.socket s).httpMessage with
  | none => rfl
  | some r =>
    have other : r ≠ a.nextRequest := Nat.ne_of_lt (pooled.known s r has).2
    simp only [Option.any_some, update_of_ne other]

theorem Pooled.enter {request : Request}
    (noSocket : request.socket = none) : Pooled config (a.enter request) := by
  refine ⟨pooled.listed, pooled.nodup, pooled.extended, pooled.ticking, pooled.once,
    pooled.notFree, ?_, ?_, ?_, ?_⟩
  · intro s mem
    rw [pooled.live_enter]
    exact pooled.notLive s mem
  · intro name s mem
    rw [pooled.live_enter]
    exact pooled.freeNotLive name s mem
  · intro r s has
    by_cases same : r = a.nextRequest
    · subst same
      simp [State.enter, noSocket] at has
    simp only [State.enter, update_of_ne same] at has ⊢
    exact pooled.current r s has
  intro s r has
  obtain ⟨old, known⟩ := pooled.known s r has
  exact ⟨old, Nat.lt_succ_of_lt known⟩

theorem Pooled.newRequest (options : Options) (firstLine : JSString)
    (message : OutgoingMessage) : Pooled config (a.newRequest config options firstLine message) :=
  (pooled.enter rfl).addRequest _ options

theorem Pooled.nextTick {rest : List Tick} (ticks : a.ticks = tick :: rest) :
    Pooled config { a with ticks := rest } ∧ Idle { a with ticks := rest } tick.socket ∧
      tick.socket < a.nextSocket := by
  have here : tick.socket ∈ a.ticks.map Tick.socket := by
    rw [ticks]
    exact mem_cons_self
  have later (s : Nat) (mem : s ∈ rest.map Tick.socket) : s ∈ a.ticks.map Tick.socket := by grind
  have once := pooled.once
  rw [ticks, map_cons, nodup_cons] at once
  refine ⟨?_, ?_, pooled.ticking _ here⟩
  · exact ⟨pooled.listed, pooled.nodup, pooled.extended,
      fun s mem => pooled.ticking s (later s mem), once.2,
      fun s mem => pooled.notFree s (later s mem), fun s mem => pooled.notLive s (later s mem),
      pooled.freeNotLive, pooled.current, pooled.known⟩
  · exact ⟨once.1, pooled.notFree _ here, pooled.notLive _ here⟩

end

/-- The beginning of `tickOnSocket` -/
def hold (r s : Nat) (a : State) : State :=
  { a with
    request := update a.request r { a.request r with socket := some s }
    socket := update a.socket s
      { a.socket s with
        httpMessage := some r
        watched := true
        attached := (a.socket s).attached ++ [r] } }

theorem attach_eq (r s : Nat) (a : State) : a.attach r s = if ((a.hold r s).socket s).writable then
        (a.hold r s).pass r ((a.hold r s).request r).message.flush ((a.hold r s).request r).own
      else a.hold r s := rfl

theorem ended_hold (r s : Nat) (a : State) (r' : Nat) :
    ((a.hold r s).request r').ended = (a.request r').ended := by
  apply field_update Request.ended
  rfl

theorem Pooled.hold (pooled : Pooled config a) (idle : Idle a s) (old : s < a.nextSocket)
    (known : r < a.nextRequest) : Pooled config (a.hold r s) := by
  have options (s' : Nat) : ((a.hold r s).socket s').options = (a.socket s').options := by
    apply field_update Socket.options
    rfl
  have message (s' : Nat) (other : s' ≠ s) :
      ((a.hold r s).socket s').httpMessage = (a.socket s').httpMessage := by
    simp only [State.hold, update_of_ne other]
  have quiet (s' : Nat) (other : s' ≠ s) : (a.hold r s).live s' = a.live s' := by
    simp only [live, message s' other, ended_hold]
  refine ⟨?_, pooled.nodup, ?_, pooled.ticking, pooled.once, pooled.notFree, ?_, ?_, ?_, ?_⟩
  · intro name s' mem
    rw [nameOf, options]
    exact pooled.listed name s' mem
  · intro s' less
    rw [options]
    exact pooled.extended s' less
  · intro s' mem
    have other : s' ≠ s := by
      rintro rfl
      exact idle.noTick mem
    rw [quiet s' other]
    exact pooled.notLive s' mem
  · intro name s' mem
    have other : s' ≠ s := by
      rintro rfl
      exact idle.notFree name mem
    rw [quiet s' other]
    exact pooled.freeNotLive name s' mem
  · intro r' s' has
    rw [ended_hold]
    by_cases same : r' = r
    · subst same
      simp only [State.hold, update_self, Option.some.injEq] at has
      subst has
      simp only [State.hold, update_self]
      exact ⟨old, fun _ => trivial⟩
    simp only [State.hold, update_of_ne same] at has
    obtain ⟨old', current⟩ := pooled.current r' s' has
    refine ⟨old', fun unended => ?_⟩
    have has' := current unended
    have other : s' ≠ s := by
      -- the exchange of the other request would be going on
      rintro rfl
      have isLive : a.live s' = true := by simp [live, has', unended]
      rw [idle.notLive] at isLive
      cases isLive
    rw [message s' other]
    exact has'
  intro s' r' has
  by_cases same : s' = s
  · subst same
    simp only [State.hold, update_self, Option.some.injEq] at has
    subst has
    exact ⟨old, known⟩
  rw [message s' same] at has
  exact pooled.known s' r' has

theorem Pooled.attach (pooled : Pooled config a) (idle : Idle a s) (old : s < a.nextSocket)
    (known : r < a.nextRequest) : Pooled config (a.attach r s) := by
  have held := pooled.hold idle old known
  rw [attach_eq]
  split
  · exact (samePhases_pass _ _ _ _).pooled held
  · exact held

/-- The exchange of a request ends. -/
def finish (r : Nat) (a : State) : State :=
  { a with request := update a.request r { a.request r with ended := true } }

theorem ended_finish {r' : Nat} (unended : ((a.finish r).request r').ended = false) :
    r' ≠ r ∧ (a.request r').ended = false := by
  rw [finish] at unended
  by_cases same : r' = r
  · grind
  · grind

theorem live_finish (isLive : (a.finish r).live s = true) : a.live s = true := by
  rw [live, Option.any_eq_true] at isLive ⊢
  obtain ⟨r', has, isLive⟩ := isLive
  rw [Bool.not_eq_true'] at isLive
  refine ⟨r', has, ?_⟩
  simpa using (ended_finish isLive).2

theorem Idle.finish (idle : Idle a s) (r : Nat) : Idle (a.finish r) s := by
  refine ⟨idle.noTick, idle.notFree, ?_⟩
  have notLive := idle.notLive
  rw [← Bool.not_eq_true] at notLive ⊢
  exact fun isLive => notLive (live_finish isLive)

theorem Pooled.finish (pooled : Pooled config a) (unended : (a.request r).ended = false)
    (has : (a.request r).socket = some s) : Pooled config (a.finish r) ∧ Idle (a.finish r) s := by
  have message := (pooled.current r s has).2 unended
  have isLive : a.live s = true := by
    rw [live, message]
    simp [unended]
  have noTick : s ∉ a.ticks.map Tick.socket := by grind [pooled.notLive]
  have notFree (name : JSString) : s ∉ a.freeSockets name := by grind [pooled.freeNotLive]
  refine ⟨⟨pooled.listed, pooled.nodup, pooled.extended, pooled.ticking, pooled.once,
    pooled.notFree, ?_, ?_, ?_, pooled.known⟩, noTick, notFree, ?_⟩
  · intro s' mem
    have notLive := pooled.notLive s' mem
    rw [← Bool.not_eq_true] at notLive ⊢
    exact fun isLive => notLive (live_finish isLive)
  · intro name s' mem
    have notLive := pooled.freeNotLive name s' mem
    rw [← Bool.not_eq_true] at notLive ⊢
    exact fun isLive => notLive (live_finish isLive)
  · intro r' s' has
    have has' : (a.request r').socket = some s' := by
      by_cases same : r' = r
      · subst same
        simpa only [State.finish, update_self] using has
      · simpa only [State.finish, update_of_ne same] using has
    obtain ⟨old, current⟩ := pooled.current r' s' has'
    exact ⟨old, fun unended => current (ended_finish unended).2⟩
  have message' : ((a.finish r).socket s).httpMessage = some r := message
  rw [live, message']
  simp [State.finish]

theorem Pooled.responseOnEnd (pooled : Pooled config a)
    (unended : (a.request r).ended = false) (has : (a.request r).socket = some s) :
    Pooled config (a.responseOnEnd r s) := by
  obtain ⟨finished, idle⟩ := pooled.finish unended has
  have old := (pooled.current r s has).1
  rw [State.responseOnEnd]
  split
  · have unwatched : SamePhases (a.finish r) { a.finish r with
        socket := update a.socket s { a.socket s with watched := false } } :=
      .ofSocket (a.finish r) s rfl rfl
    have idle' : Idle _ (Tick.free s).socket := unwatched.idle idle
    exact (unwatched.pooled finished).addTick idle' old
  have unwritable : SamePhases (a.finish r) { a.finish r with
      socket := update a.socket s { a.socket s with writable := false } } :=
    .ofSocket (a.finish r) s rfl rfl
  exact unwritable.pooled finished

/-! ## Steps -/

def markAborted (r : Nat) (a : State) : State :=
  { a with request := update a.request r { a.request r with aborted := true } }

/-- 'close' has been emitted. -/
def markClosed (s : Nat) (a : State) : State :=
  { a with socket := update a.socket s { a.socket s with closed := true } }

/-- The listeners of the agent and of the request are removed. -/
def leave (s : Nat) (a : State) : State :=
  { a with socket := update a.socket s { a.socket s with listening := false, watched := false } }

theorem samePhases_markAborted (r : Nat) (a : State) : SamePhases a (a.markAborted r) :=
  .ofRequest a r rfl rfl

theorem samePhases_markClosed (s : Nat) (a : State) : SamePhases a (a.markClosed s) :=
  .ofSocket a s rfl rfl

theorem samePhases_leave (s : Nat) (a : State) : SamePhases a (a.leave s) := .ofSocket a s rfl rfl

theorem samePhases_onIncoming (s r : Nat) (keepAlive : Bool) (a : State) :
    SamePhases a (a.onIncoming s r keepAlive) := by
  rw [onIncoming]
  split
  · exact samePhases_destroy s a
  · exact .ofRequest a r rfl rfl

/-- What an action can do -/
inductive Stepped (config : Config) (env : Environment) (a : State) : Action → State → Prop where
  | request (options : Options) (firstLine : JSString) (message : OutgoingMessage) :
      Stepped config env a (.request options firstLine message)
        (a.newRequest config options firstLine message)
  | tick {tick : Tick} {rest : List Tick} (ticks : a.ticks = tick :: rest) :
      Stepped config env a .tick ({ a with ticks := rest }.runTick config tick)
  | response {s r : Nat} (message : (a.socket s).httpMessage = some r) (keepAlive : Bool) :
      Stepped config env a (.response s keepAlive) (a.onIncoming s r keepAlive)
  | responseEnd {s r : Nat} (responded : (a.request r).responded = true)
      (unended : (a.request r).ended = false) (has : (a.request r).socket = some s) :
      Stepped config env a (.responseEnd r) (a.responseOnEnd r s)
  | abort {r : Nat} (known : r < a.nextRequest) (noSocket : (a.request r).socket = none) :
      Stepped config env a (.abort r) (a.markAborted r)
  | abortSocket {s r : Nat} (known : r < a.nextRequest) (has : (a.request r).socket = some s) :
      Stepped config env a (.abort r) ((a.markAborted r).destroy s)
  | destroy {s : Nat} (old : s < a.nextSocket) : Stepped config env a (.destroy s) (a.destroy s)
  | close {s : Nat} (old : s < a.nextSocket) (destroyed : (a.socket s).destroyed = true)
      (listening : (a.socket s).listening = true) :
      Stepped config env a (.close s)
        (((a.markClosed s).removeSocket config (free config 1) s).closeListener s)
  | closeAlone {s : Nat} (old : s < a.nextSocket) (alone : (a.socket s).listening = false) :
      Stepped config env a (.close s) ((a.markClosed s).closeListener s)
  | agentRemove {s r : Nat} (listening : (a.socket s).listening = true)
      (message : (a.socket s).httpMessage = some r) :
      Stepped config env a (.agentRemove s)
        ((a.removeSocket config (free config 1) s).leave s)
  | write {r : Nat} (known : r < a.nextRequest) (chunk : Data) (encoding : Option JSString) :
      Stepped config env a (.write r chunk encoding) (a.pass r
        ((a.request r).message.write (a.link r)
          (implicitHeader env (a.link r) (a.request r).firstLine) chunk encoding)
        ((a.request r).own.write none (implicitHeader env none (a.request r).firstLine) chunk
          encoding).1)
  | end_ {r : Nat} (known : r < a.nextRequest) (data : Option Data) (encoding : Option JSString) :
      Stepped config env a (.end_ r data encoding) (a.pass r
        ((a.request r).message.end_ (a.link r)
          (implicitHeader env (a.link r) (a.request r).firstLine) data encoding)
        ((a.request r).own.end_ none (implicitHeader env none (a.request r).firstLine) data
          encoding).1)

/-- **What an action can do**, read off `step` once for all the invariants -/
theorem stepped_of_step {action : Action} (stepped : a.step config env action = some a') :
    Stepped config env a action a' := by
  cases action with
  | request options firstLine message =>
    rw [step, Option.some.injEq] at stepped
    exact stepped ▸ .request options firstLine message
  | tick =>
    rw [step] at stepped
    split at stepped
    · cases stepped
    rename_i tick rest ticks
    exact Option.some.inj stepped ▸ .tick ticks
  | response s keepAlive =>
    rw [step, Option.map_eq_some_iff] at stepped
    obtain ⟨r, message, rfl⟩ := stepped
    exact .response message keepAlive
  | responseEnd r =>
    rw [step] at stepped
    split at stepped
    · rename_i open_
      obtain ⟨s, has, rfl⟩ := Option.map_eq_some_iff.mp stepped
      exact .responseEnd open_.1 open_.2 has
    · cases stepped
  | abort r =>
    rw [step] at stepped
    split at stepped
    · rename_i known
      have same : ((a.markAborted r).request r).socket = (a.request r).socket := by
        simp [markAborted]
      have result := Option.some.inj stepped
      cases has : (a.request r).socket with
      | none =>
        have noSocket := same.trans has
        simp only [markAborted] at noSocket
        simp only [noSocket] at result
        exact result ▸ .abort known has
      | some s =>
        have noSocket := same.trans has
        simp only [markAborted] at noSocket
        simp only [noSocket] at result
        exact result ▸ .abortSocket known has
    · cases stepped
  | destroy s =>
    rw [step] at stepped
    split at stepped
    · rename_i old
      exact Option.some.inj stepped ▸ .destroy old
    · cases stepped
  | close s =>
    rw [step] at stepped
    split at stepped
    · rename_i open_
      have same : ((a.markClosed s).socket s).listening = (a.socket s).listening := by
        simp [markClosed]
      have result := Option.some.inj stepped
      cases listening : (a.socket s).listening with
      | true =>
        exact result ▸ (if_pos (same.trans listening)).symm ▸ .close open_.1 open_.2.1 listening
      | false =>
        have alone : ¬((a.markClosed s).socket s).listening = true := by simp [same, listening]
        exact result ▸ (if_neg alone).symm ▸ .closeAlone open_.1 listening
    · cases stepped
  | agentRemove s =>
    rw [step] at stepped
    split at stepped
    · rename_i open_
      obtain ⟨r, message⟩ := Option.isSome_iff_exists.mp open_.2
      exact Option.some.inj stepped ▸ .agentRemove open_.1 message
    · cases stepped
  | write r chunk encoding =>
    rw [step] at stepped
    split at stepped
    · rename_i known
      exact Option.some.inj stepped ▸ .write known chunk encoding
    · cases stepped
  | end_ r data encoding =>
    rw [step] at stepped
    split at stepped
    · rename_i known
      exact Option.some.inj stepped ▸ .end_ known data encoding
    · cases stepped

end IoJs.Agent.State
