import IoJs.Agent.Wires

/-!
# Releasing a socket

The agent may give a socket to the next request, or put it into the pool, when the requests that had
it have said everything (`Exchanging.emitFree`). What else it does, it does with sockets that nobody
has had, or whose requests have said everything before.
-/

namespace IoJs.Agent

open IoJs.Stream IoJs.RegExp IoJs.Http List
open IoJs.Http.OutgoingMessage (Direct)
open Function (update update_of_ne update_self)

namespace State

variable {config : Config} {env : Environment} {a a' : State} {r s : Nat}

/-! ## The functions of the agent -/

theorem Exchanging.frame (exchanging : Exchanging a) (socket : a'.socket = a.socket)
    (request : a'.request = a.request) (placed : Placed a') : Exchanging a' := by
  have wires : SameWires a a' :=
    ⟨fun _ => by rw [socket], fun _ => by rw [socket], fun _ => by rw [socket],
      fun _ => by rw [request], fun _ => by rw [request], fun _ => by rw [request],
      fun _ => by rw [request]⟩
  refine ⟨wires.wired_of_same exchanging.wired ?_ ?_ ?_ ?_, exchanging.settled.keep ?_ ?_, placed⟩
  · exact fun r => by rw [request]
  · exact fun r => by rw [request]
  · rw [socket]
    exact fun _ => id
  · rw [socket]
    exact exchanging.wired.alive
  · rw [request]
    exact fun _ => id
  intro r
  rw [State.link, State.link, socket, request]
  exact id

theorem Exchanging.unlist (exchanging : Exchanging a) (s : Nat) : Exchanging (a.unlist s) := by
  obtain ⟨asking, free, usable, served, given⟩ := exchanging.placed
  refine exchanging.frame rfl rfl ⟨asking, ?_, ?_, served, given⟩
  · exact fun name s' mem => free name s' ((sublist_unlist s a name).2.subset mem)
  · exact fun s' => (usable s').imp_left fun idle => idle.unlist s

theorem Exchanging.onSocket (exchanging : Exchanging a) (clean : Clean a s)
    (usable : Usable (a.socket s)) (noSocket : (a.request r).socket = none)
    (queue : Option JSString) : Exchanging (a.onSocket r s queue) := by
  obtain ⟨asking, free, usable', served, given⟩ := exchanging.placed
  refine exchanging.frame rfl rfl ⟨?_, free, ?_, ?_, ?_⟩
  · intro r' s' mem
    obtain mem | mem := mem_append.mp mem
    · exact asking r' s' mem
    rw [mem_singleton, Tick.onSocket.injEq] at mem
    obtain ⟨rfl, rfl⟩ := mem
    exact ⟨clean, noSocket⟩
  · intro s'
    by_cases same : s' = s
    · subst same
      exact .inr usable
    refine (usable' s').imp_left fun idle => ⟨?_, idle.notFree, idle.notLive⟩
    simp only [State.onSocket, map_append, mem_append, not_or]
    refine ⟨idle.noTick, ?_⟩
    simpa [Tick.socket] using same
  · intro r' s' has
    rw [served_onSocket]
    exact mem_append_left _ (served r' s' has)
  intro g mem
  obtain mem | mem := mem_append.mp mem
  · exact given g mem
  rw [mem_singleton.mp mem]
  simp only
  rw [filter_eq_nil_iff]
  intro r' attached
  rw [clean r' attached]
  exact Bool.false_ne_true

theorem Placed.noSocket (placed : Placed a) (notServed : r ∉ a.served) :
    (a.request r).socket = none := by
  cases has : (a.request r).socket with
  | none => rfl
  | some s => exact absurd (placed.served r s has) notServed

theorem Exchanging.shift (exchanging : Exchanging a) (ordered : Ordered a) (clean : Clean a s)
    (usable : Usable (a.socket s)) : Exchanging (a.shift s) := by
  rw [State.shift]
  split
  · exact exchanging
  rename_i r rest queue
  have waits : r ∈ a.requests (a.nameOf s) := by
    rw [queue]
    exact mem_cons_self
  have noSocket := exchanging.placed.noSocket (ordered.waiting _ r waits).2
  obtain ⟨asking, free, usable', served, given⟩ := exchanging.placed
  have taken : Exchanging { a with requests := update a.requests (a.nameOf s) rest } :=
    exchanging.frame rfl rfl
      ⟨asking, free, fun s' => (usable' s').imp_left fun idle =>
        ⟨idle.noTick, idle.notFree, idle.notLive⟩, served, given⟩
  exact taken.onSocket clean usable noSocket _

theorem forall_createSocket {P : Nat → Socket → Prop} (options : Options)
    (fresh : P a.nextSocket (.new (config.extend options))) (old : ∀ s, P s (a.socket s))
    (s : Nat) :
    P s ((a.createSocket config options).socket s) := by
  by_cases same : s = a.nextSocket
  · subst same
    rw [createSocket_socket_self]
    exact fresh
  rw [createSocket_socket_of_ne options same]
  exact old s

theorem Exchanging.createSocket (exchanging : Exchanging a) (pooled : Pooled config a)
    (options : Options) : Exchanging (a.createSocket config options) := by
  obtain ⟨wired, settled, placed⟩ := exchanging
  have link (r : Nat) : (a.createSocket config options).link r = a.link r := by
    have socket : ((a.createSocket config options).request r).socket = (a.request r).socket := rfl
    cases has : (a.request r).socket with
    | none => rw [link_of_none has, link_of_none (socket.trans has)]
    | some s =>
      have other : s ≠ a.nextSocket := Nat.ne_of_lt (pooled.current r s has).1
      rw [link_of_some has, link_of_some (socket.trans has),
        createSocket_socket_of_ne options other]
  have noOne (r : Nat) : (a.request r).socket ≠ some a.nextSocket := fun has =>
    Nat.lt_irrefl _ (pooled.current r _ has).1
  have clean (s : Nat) : (Clean a s → Clean (a.createSocket config options) s) := by
    apply forall_createSocket (P := fun s socket =>
      Clean a s → ∀ r ∈ socket.attached, a.isWhole r = true) options
    · exact nofun
    · exact fun s clean => clean
  refine ⟨⟨?_, ?_, wired.unattached, ?_, ?_, ?_, ?_, ?_, ?_⟩, ?_, ?_⟩
  · intro r
    rw [link]
    exact wired.spoken r
  · apply forall_createSocket (P := fun s socket =>
      socket.writable = true → socket.destroyed = false) options
    · exact fun _ => rfl
    · exact wired.alive
  · intro r
    apply forall_createSocket (P := fun s socket =>
      r ∈ socket.attached ↔ (a.request r).socket = some s) options
    · exact ⟨nofun, fun has => absurd has (noOne r)⟩
    · exact wired.attached r
  · apply forall_createSocket (P := fun s socket => socket.attached.Nodup) options
    · exact nodup_nil
    · exact wired.nodup
  · apply forall_createSocket (P := fun s socket =>
      ∀ r, socket.httpMessage = some r → socket.attached.getLast? = some r) options
    · exact nofun
    · exact wired.last
  · apply forall_createSocket (P := fun s socket =>
      socket.wire = socket.attached.flatMap fun r => (a.request r).passed) options
    · rfl
    · exact wired.wire
  · apply forall_createSocket (P := fun s socket =>
      ∀ r ∈ socket.attached.dropLast, a.isWhole r = true) options
    · exact nofun
    · exact wired.whole
  · apply forall_createSocket (P := fun s socket =>
      socket.httpMessage = none → ∀ r ∈ socket.attached, a.isWhole r = true) options
    · exact nofun
    · exact wired.clean
  · refine settled.keep (fun _ => id) ?_
    intro r
    rw [link]
    exact id
  obtain ⟨asking, free, usable, served, given⟩ := placed
  refine ⟨?_, ?_, ?_, served, given⟩
  · exact fun r s mem => (asking r s mem).imp_left (clean s)
  · exact fun name s mem => clean s (free name s mem)
  intro s
  by_cases same : s = a.nextSocket
  · subst same
    refine .inr (.inl ?_)
    rw [createSocket_socket_self]
    rfl
  rw [createSocket_socket_of_ne options same]
  refine (usable s).imp_left fun idle => ⟨idle.noTick, idle.notFree, ?_⟩
  have notLive := idle.notLive
  rw [← Bool.not_eq_true] at notLive ⊢
  exact fun isLive => notLive (createSocket_live options s isLive)

theorem fresh_createSocket (config : Config) (options : Options) (a : State) :
    Clean (a.createSocket config options) a.nextSocket ∧
      Usable ((a.createSocket config options).socket a.nextSocket) := by
  refine ⟨?_, .inl ?_⟩
  · intro r mem
    rw [createSocket_socket_self] at mem
    cases mem
  rw [createSocket_socket_self]
  rfl

theorem Exchanging.forget (exchanging : Exchanging a) (clean : Clean a s) :
    Exchanging (a.forget s) := by
  obtain ⟨wired, settled, placed⟩ := exchanging
  have attached (s' : Nat) : ((a.forget s).socket s').attached = (a.socket s').attached := by
    apply field_update Socket.attached
    rfl
  have wire (s' : Nat) : ((a.forget s).socket s').wire = (a.socket s').wire := by
    apply field_update Socket.wire
    rfl
  have writable (s' : Nat) : ((a.forget s).socket s').writable = (a.socket s').writable := by
    apply field_update Socket.writable
    rfl
  have destroyed (s' : Nat) : ((a.forget s).socket s').destroyed = (a.socket s').destroyed := by
    apply field_update Socket.destroyed
    rfl
  have message (s' : Nat) : ((a.forget s).socket s').httpMessage = (a.socket s').httpMessage ∨
      ((a.forget s).socket s').httpMessage = none ∧ s' = s := by
    rw [State.forget]
    by_cases same : s' = s
    · subst same
      simp only [update_self]
      exact .inr ⟨trivial, trivial⟩
    simp only [update_of_ne same]
    exact .inl trivial
  have clean' (s' : Nat) (clean : Clean a s') : Clean (a.forget s) s' := by
    intro r mem
    rw [attached] at mem
    exact clean r mem
  refine ⟨⟨?_, ?_, wired.unattached, ?_, ?_, ?_, ?_, ?_, ?_⟩, ?_, ?_⟩
  · intro r
    obtain ⟨begun, finished, passed, mirror⟩ := wired.spoken r
    refine ⟨begun, finished, passed, fun lossless => mirror ?_⟩
    rw [lossless_link] at lossless ⊢
    intro s' has
    rw [← destroyed]
    exact lossless s' has
  · intro s'
    rw [writable, destroyed]
    exact wired.alive s'
  · intro r s'
    rw [attached]
    exact wired.attached r s'
  · intro s'
    rw [attached]
    exact wired.nodup s'
  · intro s' r has
    rw [attached]
    obtain kept | ⟨none, -⟩ := message s'
    · exact wired.last s' r (kept.symm.trans has)
    rw [none] at has
    cases has
  · intro s'
    rw [wire, attached]
    exact wired.wire s'
  · intro s'
    rw [attached]
    exact wired.whole s'
  · intro s' none
    obtain kept | ⟨-, rfl⟩ := message s'
    · exact clean' s' (wired.clean s' (kept.symm.trans none))
    · exact clean' s' clean
  · refine settled.keep (fun _ => id) ?_
    intro r direct
    rw [direct_link] at direct ⊢
    obtain ⟨s', has, message', open_⟩ := direct
    rw [writable, destroyed] at open_
    obtain kept | ⟨none, -⟩ := message s'
    · exact ⟨s', has, kept.symm.trans message', open_⟩
    rw [none] at message'
    cases message'
  obtain ⟨asking, free, usable, served, given⟩ := placed
  refine ⟨?_, ?_, ?_, served, given⟩
  · exact fun r s' mem => (asking r s' mem).imp_left (clean' s')
  · exact fun name s' mem => clean' s' (free name s' mem)
  intro s'
  rw [Usable, writable, destroyed]
  refine (usable s').imp_left fun idle => ⟨idle.noTick, idle.notFree, ?_⟩
  have notLive := idle.notLive
  rw [← Bool.not_eq_true] at notLive ⊢
  exact fun isLive => notLive (live_forget isLive)

theorem Exchanging.pool (exchanging : Exchanging a) (clean : Clean a s)
    (usable : Usable (a.socket s)) : Exchanging (a.pool s) := by
  obtain ⟨asking, free, usable', served, given⟩ := exchanging.placed
  have members (name : JSString) (s' : Nat) (mem : s' ∈ (a.pool s).freeSockets name) :
      s' ∈ a.freeSockets name ∨ s' = s := by
    rw [State.pool] at mem
    by_cases same : name = a.nameOf s
    · subst same
      simpa only [update_self, mem_append, mem_singleton] using mem
    simp only [update_of_ne same] at mem
    exact .inl mem
  refine exchanging.frame rfl rfl ⟨asking, ?_, ?_, served, given⟩
  · intro name s' mem
    obtain mem | rfl := members name s' mem
    · exact free name s' mem
    · exact clean
  intro s'
  by_cases same : s' = s
  · subst same
    exact .inr usable
  refine (usable' s').imp_left fun idle => ⟨idle.noTick, fun name mem => ?_, idle.notLive⟩
  exact idle.notFree name ((members name s' mem).resolve_right same)

/-- 'free' gives a socket to the next request, or puts it into the pool. -/
def releases (config : Config) (s : Nat) (a : State) : Bool :=
  (a.socket s).listening && !(a.socket s).destroyed &&
    (a.requests (a.nameOf s) ≠ [] ||
      (a.keepable config s && config.below (a.count (a.nameOf s)) &&
        (a.freeSockets (a.nameOf s)).length < config.maxFreeSockets))

section

variable (exchanging : Exchanging a) (pooled : Pooled config a)
include exchanging pooled

theorem Exchanging.replace (ordered : Ordered a) (s : Nat) : Exchanging (a.replace config s) := by
  have unlisted := exchanging.unlist s
  have pooled' := pooled.unlist s
  rw [State.replace]
  split
  · exact unlisted
  have created := unlisted.createSocket pooled' (a.socket s).options
  have ordered' : Ordered ((a.unlist s).createSocket config (a.socket s).options) :=
    ordered.keep ⟨rfl, rfl, rfl, rfl, rfl⟩
  obtain ⟨clean, usable⟩ := fresh_createSocket config (a.socket s).options (a.unlist s)
  exact created.shift ordered' clean usable

theorem Exchanging.removeSocket (ordered : Ordered a) (old : s < a.nextSocket) (depth : Nat) :
    Exchanging (a.removeSocket config (State.free config (depth + 1)) s) := by
  rw [pooled.removeSocket_eq old]
  exact exchanging.replace pooled ordered s

theorem Exchanging.emitFree
    (ordered : Ordered a) (old : s < a.nextSocket) (usable : Usable (a.socket s))
    (clean : a.releases config s = true → Clean a s) : Exchanging (a.emitFree config s) := by
  have removed : Exchanging ((a.removeSocket config (State.free config 1) s).destroy s) :=
    (exchanging.removeSocket pooled ordered old 0).destroy s
  rw [State.emitFree]
  split
  · rename_i listening
    rw [State.free]
    split
    · rename_i give
      refine exchanging.shift ordered (clean ?_) usable
      simp [State.releases, listening, give.1, give.2]
    rename_i notGiven
    split
    · rename_i keep
      split
      · exact removed
      rename_i room
      rw [not_or, Bool.not_eq_false, Nat.not_le] at room
      have whole : (a.socket s).destroyed = false := by
        rw [keepable, Bool.and_eq_true, Bool.and_eq_true, Bool.not_eq_true'] at keep
        exact keep.1.2
      have clean' : Clean a s := by
        refine clean ?_
        simp [State.releases, listening, whole, keep, room.1, room.2]
      have attached : ((a.forget s).socket s).attached = (a.socket s).attached := by
        simp only [State.forget, update_self]
      have usable' : Usable (((a.forget s).unlist s).socket s) := by
        simp only [State.unlist, State.forget, update_self]
        exact usable
      rw [removeSocket_of_empty (free_pool_empty notGiven keep)]
      refine ((exchanging.forget clean').unlist s).pool ?_ usable'
      intro r mem
      exact clean' r (attached ▸ mem)
    · exact removed
  · exact exchanging

theorem Exchanging.addRequest
    (notServed : r ∉ a.served) (options : Options) :
    Exchanging (a.addRequest config r options) := by
  have noSocket := exchanging.placed.noSocket notServed
  obtain ⟨asking, free, usable, served, given⟩ := id exchanging.placed
  rw [State.addRequest]
  split
  · rename_i s rest here
    have mem : s ∈ a.freeSockets (getName options) := by
      rw [here]
      exact mem_cons_self
    have left (name : JSString) (s' : Nat)
        (mem' : s' ∈ update a.freeSockets (getName options) rest name) :
        s' ∈ a.freeSockets name := by
      by_cases same : name = getName options
      · subst same
        rw [update_self] at mem'
        rw [here]
        exact mem_cons_of_mem s mem'
      · rwa [update_of_ne same] at mem'
    have usable' : Usable (a.socket s) := (usable s).resolve_left fun idle => idle.notFree _ mem
    have taken : Exchanging { a with
        freeSockets := update a.freeSockets (getName options) rest } := by
      refine exchanging.frame rfl rfl ⟨asking, ?_, ?_, served, given⟩
      · exact fun name s' mem' => free name s' (left name s' mem')
      exact fun s' => (usable s').imp_left fun idle =>
        ⟨idle.noTick, fun name mem' => idle.notFree name (left name s' mem'), idle.notLive⟩
    have asked := taken.onSocket (s := s) (free _ s mem) usable' noSocket none
    obtain ⟨asking, free, usable, served, given⟩ := asked.placed
    exact asked.frame rfl rfl ⟨asking, free,
      fun s' => (usable s').imp_left fun idle => ⟨idle.noTick, idle.notFree, idle.notLive⟩,
      served, given⟩
  split
  · obtain ⟨clean, usable⟩ := fresh_createSocket config options a
    exact (exchanging.createSocket pooled options).onSocket clean usable noSocket none
  exact exchanging.frame rfl rfl ⟨asking, free,
    fun s' => (usable s').imp_left fun idle => ⟨idle.noTick, idle.notFree, idle.notLive⟩,
    served, given⟩

end

end State

end IoJs.Agent
