import IoJs.Agent.Queues

/-!
# The limit of an agent

An agent has at most `maxSockets` sockets of a key, in use or free. `addRequest` looks at their
number before it makes one; `removeSocket` does not. It takes the socket off the lists and makes
another one if a request waits, and it may be called again for a socket that has been taken off
before: by 'free' when the socket has been destroyed, and by 'close' then.
-/

namespace IoJs.Agent

open IoJs.Stream IoJs.RegExp IoJs.Http List
open Function (update update_of_ne update_self)

variable {config : Config} {env : Environment}

theorem Config.below_iff {count : Nat} :
    config.below count = true ↔ ∀ max, config.maxSockets = some max → count < max := by
  rw [Config.below]
  cases config.maxSockets with
  | none => simp
  | some max => simp

namespace State

variable {a a' : State} {s : Nat}

/-- What a removal of a socket needs to keep to the limit: nobody waits, or the socket is still
listed, or there is room for one more. -/
def removable (config : Config) (a : State) (s : Nat) : Bool :=
  a.requests (a.nameOf s) = [] || s ∈ a.sockets (a.nameOf s) ||
    ((a.socket s).destroyed && s ∈ a.freeSockets (a.nameOf s)) ||
    config.below (a.count (a.nameOf s))

/-- What 'free' needs: a destroyed socket is removed. -/
def releasable (config : Config) (a : State) (s : Nat) : Bool :=
  !(a.socket s).destroyed || a.removable config s

/-- What `addRequest` needs: a new socket is listed under the key of the options that the agent has
extended. -/
def creatable (config : Config) (a : State) (options : Options) : Bool :=
  a.freeSockets (getName options) ≠ [] || !config.below (a.count (getName options)) ||
    config.below (a.count (getName (config.extend options)))

/-- The actions that keep to the limit -/
def keepsLimit (config : Config) (a : State) : Action → Bool
  | .request options _ _ => a.creatable config options
  | .tick =>
    match a.ticks with
    | .free s :: _ => a.releasable config s
    | .onSocket r s :: _ => !(a.request r).aborted || a.releasable config s
    | [] => true
  | .close s => !(a.socket s).listening || a.removable config s
  | .agentRemove s => a.removable config s
  | _ => true

/-! ## Counting -/

/-- There are not too many sockets of any key. -/
def Within (config : Config) (a : State) : Prop :=
  ∀ max, config.maxSockets = some max → ∀ name, a.count name ≤ max

theorem Within.keep (within : Within config a) (same : SamePhases a a') : Within config a' := by
  intro max limit name
  rw [count, same.freeSockets, same.sockets]
  exact within max limit name

theorem count_unlist_le (s : Nat) (a : State) (name : JSString) :
    (a.unlist s).count name ≤ a.count name := by
  obtain ⟨used, free⟩ := sublist_unlist s a name
  exact Nat.add_le_add free.length_le used.length_le

theorem count_unlist_used (mem : s ∈ a.sockets (a.nameOf s)) :
    (a.unlist s).count (a.nameOf s) < a.count (a.nameOf s) := by
  have free := (sublist_unlist s a (a.nameOf s)).2.length_le
  have used : ((a.unlist s).sockets (a.nameOf s)).length = (a.sockets (a.nameOf s)).length - 1 := by
    simp only [unlist, update_self]
    exact length_erase_of_mem mem
  have some := length_pos_of_mem mem
  rw [count, count, used]
  omega

theorem count_unlist_free (destroyed : (a.socket s).destroyed = true)
    (mem : s ∈ a.freeSockets (a.nameOf s)) :
    (a.unlist s).count (a.nameOf s) < a.count (a.nameOf s) := by
  have used := (sublist_unlist s a (a.nameOf s)).1.length_le
  have free : ((a.unlist s).freeSockets (a.nameOf s)).length =
      (a.freeSockets (a.nameOf s)).length - 1 := by
    simp only [unlist, if_pos destroyed, update_self]
    exact length_erase_of_mem mem
  have some := length_pos_of_mem mem
  rw [count, count, free]
  omega

theorem count_createSocket (options : Options) (name : JSString) :
    (a.createSocket config options).count name =
      a.count name + if name = getName (config.extend options) then 1 else 0 := by
  simp only [count, createSocket]
  by_cases same : name = getName (config.extend options)
  · subst same
    rw [update_self, if_pos rfl, length_append, length_singleton]
    omega
  rw [update_of_ne same, if_neg same]
  omega

theorem count_pool (s : Nat) (a : State) (name : JSString) :
    (a.pool s).count name = a.count name + if name = a.nameOf s then 1 else 0 := by
  simp only [count, pool]
  by_cases same : name = a.nameOf s
  · subst same
    rw [update_self, if_pos rfl, length_append, length_singleton]
    omega
  rw [update_of_ne same, if_neg same]
  omega

theorem count_shift (s : Nat) (a : State) (name : JSString) :
    (a.shift s).count name = a.count name := by
  rw [shift]
  split
  · rfl
  · rfl

theorem Within.room (within : Within config a) (removable : a.removable config s = true)
    (waiting : a.requests (a.nameOf s) ≠ []) {max : Nat} (limit : config.maxSockets = some max) :
    (a.unlist s).count (a.nameOf s) < max := by
  have most := within max limit (a.nameOf s)
  simp only [State.removable, Bool.or_eq_true, Bool.and_eq_true, decide_eq_true_eq] at removable
  obtain ((empty | used) | ⟨destroyed, free⟩) | below := removable
  · exact absurd empty waiting
  · exact Nat.lt_of_lt_of_le (count_unlist_used used) most
  · exact Nat.lt_of_lt_of_le (count_unlist_free destroyed free) most
  · exact Nat.lt_of_le_of_lt (count_unlist_le s a _) (Config.below_iff.mp below max limit)

theorem Within.replace (within : Within config a) (pooled : Pooled config a)
    (old : s < a.nextSocket) (removable : a.removable config s = true) :
    Within config (a.replace config s) := by
  intro max limit name
  have most := within max limit name
  have less := count_unlist_le s a name
  rw [State.replace]
  split
  · omega
  rename_i waiting
  have key : getName (config.extend (a.socket s).options) = a.nameOf s :=
    congrArg getName (pooled.extended s old)
  have room := within.room removable waiting limit
  rw [count_shift, count_createSocket, key]
  split
  · rename_i same
    subst same
    omega
  · omega

theorem Within.removeSocket (within : Within config a) (pooled : Pooled config a)
    (old : s < a.nextSocket) (removable : a.removable config s = true) :
    Within config (a.removeSocket config (free config 1) s) := by
  rw [pooled.removeSocket_eq old]
  exact within.replace pooled old removable

theorem removable_of_releasable (releasable : a.releasable config s = true)
    (notGiven : ¬((a.socket s).destroyed = false ∧ a.requests (a.nameOf s) ≠ [])) :
    a.removable config s = true := by
  rw [State.releasable, Bool.or_eq_true, Bool.not_eq_true'] at releasable
  obtain whole | removable := releasable
  · have empty : a.requests (a.nameOf s) = [] := by
      by_contra waiting
      exact notGiven ⟨whole, waiting⟩
    simp [State.removable, empty]
  · exact removable

section

variable (within : Within config a)
include within

theorem Within.emitFree (pooled : Pooled config a)
    (old : s < a.nextSocket) (releasable : a.releasable config s = true) :
    Within config (a.emitFree config s) := by
  rw [State.emitFree]
  split
  · rw [free]
    split
    · intro max limit name
      rw [count_shift]
      exact within max limit name
    rename_i notGiven
    have removed : Within config ((a.removeSocket config (free config 1) s).destroy s) :=
      (within.removeSocket pooled old (removable_of_releasable releasable notGiven)).keep
        (samePhases_destroy s _)
    split
    · rename_i keep
      split
      · exact removed
      rename_i room
      rw [removeSocket_of_empty (free_pool_empty notGiven keep)]
      intro max limit name
      have most := within max limit name
      have less : ((a.forget s).unlist s).count name ≤ a.count name :=
        count_unlist_le s (a.forget s) name
      have key : ((a.forget s).unlist s).nameOf s = a.nameOf s := nameOf_forget s s a
      rw [not_or, Bool.not_eq_false] at room
      have below := Config.below_iff.mp room.1 max limit
      rw [count_pool, key]
      split
      · rename_i same
        subst same
        omega
      · omega
    · exact removed
  · exact within

theorem Within.addRequest {r : Nat} {options : Options}
    (creatable : a.creatable config options = true) :
    Within config (a.addRequest config r options) := by
  intro max limit name
  have most := within max limit name
  rw [State.addRequest]
  split
  · rename_i s rest free
    have here := within max limit (getName options)
    rw [count, free, length_cons] at here
    simp only [count, onSocket] at most ⊢
    by_cases same : name = getName options
    · subst same
      simp only [update_self, length_append, length_singleton]
      omega
    simp only [update_of_ne same]
    exact most
  rename_i free
  split
  · rename_i below
    have room : config.below (a.count (getName (config.extend options))) = true := by
      simp only [State.creatable, free, below] at creatable
      simpa using creatable
    have here := Config.below_iff.mp room max limit
    have made : (a.createSocket config options).count name ≤ max := by
      rw [count_createSocket]
      split
      · rename_i same
        subst same
        omega
      · omega
    exact made
  · exact most

/-! ## Runs -/

theorem Within.runTick (pooled : Pooled config a) {tick : Tick}
    {rest : List Tick} (ticks : a.ticks = tick :: rest)
    (keeps : a.keepsLimit config .tick = true) :
    Within config ({ a with ticks := rest }.runTick config tick) := by
  obtain ⟨pooled', -, old⟩ := pooled.nextTick ticks
  have within' : Within config { a with ticks := rest } := within
  rw [keepsLimit, ticks] at keeps
  cases tick with
  | free s => exact within'.emitFree pooled' old keeps
  | onSocket r s =>
    rw [State.runTick]
    split
    · rename_i aborted
      have aborted' : (a.request r).aborted = true := aborted
      simp only [aborted', Bool.not_true, Bool.false_or] at keeps
      exact within'.emitFree pooled' old keeps
    rw [attach_eq]
    split
    · exact within
    · exact within

theorem Within.responseOnEnd (r s : Nat) : Within config (a.responseOnEnd r s) := by
  rw [State.responseOnEnd]
  split
  · exact within
  · exact within

end

theorem removable_markClosed (s : Nat) (a : State) :
    (a.markClosed s).removable config s = a.removable config s := by
  have named : (a.markClosed s).nameOf s = a.nameOf s := by
    rw [nameOf, (samePhases_markClosed s a).options, nameOf]
  have destroyed : ((a.markClosed s).socket s).destroyed = (a.socket s).destroyed := by
    simp only [markClosed, update_self]
  rw [removable, named, destroyed]
  rfl

/-- One step that keeps to the limit makes no socket too many, whatever the key. -/
theorem Within.step (within : Within config a) (pooled : Pooled config a) {action : Action}
    (keeps : a.keepsLimit config action = true)
    (stepped : a.step config env action = some a') : Within config a' := by
  cases stepped_of_step stepped with
  | request options firstLine message =>
    have entered : Within config (a.enter (.new firstLine
        { message with
          last := !(config.keepAlive || config.maxSockets.isSome)
          shouldKeepAlive := config.keepAlive || config.maxSockets.isSome })) := within
    exact entered.addRequest keeps
  | tick ticks => exact within.runTick pooled ticks keeps
  | response => exact within.keep (samePhases_onIncoming _ _ _ _)
  | responseEnd => exact within.responseOnEnd _ _
  | abort | abortSocket | destroy | write | end_ => exact within
  | close old destroyed listening =>
    rename_i s
    have closed := samePhases_markClosed s a
    have removable : (a.markClosed s).removable config s = true := by
      rw [removable_markClosed]
      simpa only [keepsLimit, listening, Bool.not_true, Bool.false_or] using keeps
    have removed := (within.keep closed).removeSocket (closed.pooled pooled) old removable
    exact removed.keep (samePhases_closeListener s _)
  | closeAlone =>
    exact within.keep ((samePhases_markClosed _ a).trans (samePhases_closeListener _ _))
  | agentRemove listening message =>
    exact within.removeSocket pooled (pooled.known _ _ message).1 keeps

/-- **The limit of an agent.**  In every run in which each removal finds the socket on a list, or
nobody waiting, or room, and in which each new socket finds room under its key, the sockets of a key
are at most `maxSockets`, in use or free, and none is there twice. -/
theorem limit_of_run {max : Nat} (limit : config.maxSockets = some max)
    (run : Library.Run (step config env) (fun a action => a.keepsLimit config action = true) .new a)
    (name : JSString) :
    (a.sockets name).length + (a.freeSockets name).length ≤ max ∧
      (a.sockets name ++ a.freeSockets name).Nodup := by
  have holds : Sound config a ∧ Within config a := by
    refine run.invariant (fun a => Sound config a ∧ Within config a) ?_ ?_
    · exact ⟨.new config, fun max _ name => Nat.zero_le max⟩
    intro a a' action holds keeps stepped
    exact ⟨holds.1.step stepped, holds.2.step holds.1.pooled keeps stepped⟩
  have most := holds.2 max limit name
  rw [count] at most
  exact ⟨by omega, holds.1.pooled.nodup name⟩

end State

open State

/-- A socket for each key, and no keep-alive -/
def Config.single : Config :=
  { maxSockets := some 1
    maxFreeSockets := 256
    keepAlive := false
    host := none
    port := none
    localAddress := none }

/-- The first request ends; the socket goes to the second one. -/
theorem limit_of_two : ∃ a : State,
    a.requests (js "a:80::") = [] ∧ (a.sockets (js "a:80::")).length = 1 ∧
      (a.sockets (js "a:80::")).length + (a.freeSockets (js "a:80::")).length ≤ 1 ∧
      (a.sockets (js "a:80::") ++ a.freeSockets (js "a:80::")).Nodup := by
  obtain ⟨a, run, queue, used⟩ := Library.Run.exists_of_exec
    (step .single .ascii) (fun a action => a.keepsLimit .single action = true) .new
    (fun a => a.requests (js "a:80::") = [] ∧ (a.sockets (js "a:80::")).length = 1)
    [.get, .get, .tick, .response 0 true, .responseEnd 0, .tick, .tick] (by decide +kernel)
  exact ⟨a, queue, used, limit_of_run rfl run _⟩

/-- Two requests wait when the response to the first one ends and its socket is destroyed. 'free'
removes the socket and makes one for the second request; 'close' removes it again, and makes one for
the third. -/
theorem limit_exceeded : ¬∀ (config : Config) (env : Environment) (a : State),
    Library.Run (step config env) (fun _ _ => True) .new a →
    ∀ max, config.maxSockets = some max → ∀ name,
      (a.sockets name).length + (a.freeSockets name).length ≤ max ∧
        (a.sockets name ++ a.freeSockets name).Nodup := by
  intro claim
  obtain ⟨a, run, used⟩ := Library.Run.exists_of_exec (step .single .ascii) (fun _ _ => True) .new
    (fun a => a.sockets (js "a:80::") = [1, 2])
    [.get, .get, .get, .tick, .response 0 true, .responseEnd 0, .destroy 0, .tick, .close 0]
    (by decide +kernel)
  have most := (claim .single .ascii a run 1 rfl (js "a:80::")).1
  simp only [used, length_cons, length_nil] at most
  omega

end IoJs.Agent
