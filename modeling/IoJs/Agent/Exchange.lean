import IoJs.Agent.Assignment
import IoJs.Agent.Calls
import IoJs.Agent.Release

/-!
# Whole exchanges

A socket that is used again carries one request after the other. It is given away when a response
has ended, whether its request has or not. As long as no socket is released whose request goes on,
a socket carries whole requests, and the beginning of the last one.
-/

namespace IoJs.Agent

open IoJs.Stream IoJs.RegExp IoJs.Http List
open IoJs.Http.OutgoingMessage (Direct)
open Function (update)

namespace State

variable {config : Config} {env : Environment} {a a' : State} {r s : Nat}
variable {tick : Tick} {rest : List Tick}

/-! ## Runs -/

/-- A new request holds nothing before its header is sent, as its constructor leaves it. -/
def begins : Action → Bool
  | .request _ _ message => decide message.Begun
  | _ => true

/-- A socket is only released when its request has been ended. -/
def releasesFinished (config : Config) (a : State) : Action → Bool
  | .tick =>
    match a.ticks with
    | .free s :: _ =>
      !a.releases config s || (a.socket s).httpMessage.all fun r => (a.request r).message.finished
    | _ => true
  | _ => true

theorem Exchanging.nextTick (exchanging : Exchanging a)
    (ticks : a.ticks = tick :: rest) : Exchanging { a with ticks := rest } := by
  obtain ⟨asking, free, usable, served, given⟩ := exchanging.placed
  have later {tick' : Tick} (mem : tick' ∈ rest) : tick' ∈ a.ticks := by
    rw [ticks]
    exact mem_cons_of_mem tick mem
  refine exchanging.frame rfl rfl ⟨?_, free, ?_, served, given⟩
  · exact fun r s mem => asking r s (later mem)
  intro s
  refine (usable s).imp_left fun idle => ⟨?_, idle.notFree, idle.notLive⟩
  intro mem
  obtain ⟨tick', mem', rfl⟩ := List.mem_map.mp mem
  exact idle.noTick (List.mem_map_of_mem (later mem'))

theorem Placed.usable_of_tick (placed : Placed a) (mem : tick ∈ a.ticks) :
    Usable (a.socket tick.socket) :=
  (placed.usable tick.socket).resolve_left fun idle => idle.noTick (List.mem_map_of_mem mem)

theorem Exchanging.clean_of_finished (exchanging : Exchanging a) (usable : Usable (a.socket s))
    (whole : (a.socket s).destroyed = false)
    (finished : ∀ r, (a.socket s).httpMessage = some r →
      (a.request r).message.finished = true) : Clean a s := by
  refine exchanging.wired.clean_of_last fun r message => ?_
  have writable : (a.socket s).writable = true := by
    refine usable.resolve_right ?_
    rw [whole]
    exact Bool.false_ne_true
  have direct : Direct (a.link r) :=
    direct_link.mpr ⟨s, exchanging.wired.socket_of_message message, message, writable, whole⟩
  exact exchanging.wired.isWhole (finished r message) direct.lossless (exchanging.settled r direct)

theorem Exchanging.runTick (exchanging : Exchanging a) (sound : Sound config a)
    (ticks : a.ticks = tick :: rest) (finished : a.releasesFinished config .tick = true) :
    Exchanging ({ a with ticks := rest }.runTick config tick) := by
  obtain ⟨pooled, idle, old⟩ := sound.pooled.nextTick ticks
  have ordered := sound.ordered.nextTick ticks
  have later := exchanging.nextTick ticks
  have here : tick ∈ a.ticks := by
    rw [ticks]
    exact mem_cons_self
  have usable := exchanging.placed.usable_of_tick here
  cases tick with
  | free s =>
    refine later.emitFree pooled ordered old usable fun releases => ?_
    have whole : (a.socket s).destroyed = false := by
      rw [State.releases, Bool.and_eq_true, Bool.and_eq_true, Bool.not_eq_true'] at releases
      exact releases.1.2
    refine later.clean_of_finished usable whole fun r message => ?_
    have releases' : a.releases config s = true := releases
    have message' : (a.socket s).httpMessage = some r := message
    rw [releasesFinished, ticks] at finished
    simpa only [releases', message', Bool.not_true, Bool.false_or, Option.all_some] using finished
  | onSocket r s =>
    obtain ⟨clean, noSocket⟩ := exchanging.placed.asking r s here
    rw [State.runTick]
    split
    · exact later.emitFree pooled ordered old usable fun _ => clean
    obtain ⟨g, mem, rfl, rfl⟩ := sound.ordered.asked r s here
    refine later.attach idle usable clean noSocket (List.mem_map_of_mem mem) ?_
    -- nobody is given two sockets
    intro s' mem'
    have asked : Tick.onSocket g.request s' ∈ a.ticks := by
      rw [ticks]
      exact mem_cons_of_mem _ mem'
    obtain ⟨g', mem'', same, rfl⟩ := sound.ordered.asked g.request s' asked
    obtain rfl := inj_on_of_nodup_map sound.ordered.once mem'' mem same
    exact idle.noTick (List.mem_map_of_mem mem')

theorem Exchanging.responseOnEnd (exchanging : Exchanging a) (pooled : Pooled config a)
    (unended : (a.request r).ended = false) (has : (a.request r).socket = some s) :
    Exchanging (a.responseOnEnd r s) := by
  obtain ⟨-, idle⟩ := pooled.finish unended has
  have finished := exchanging.finish r
  have message := (pooled.current r s has).2 unended
  have usable : Usable (a.socket s) := by
    refine (exchanging.placed.usable s).resolve_left fun idle => ?_
    have notLive := idle.notLive
    rw [live, message] at notLive
    simp [unended] at notLive
  have alive := exchanging.wired.alive s
  rw [State.responseOnEnd]
  split
  · have unwatched : Exchanging { a.finish r with
        socket := update a.socket s { a.socket s with watched := false } } :=
      finished.ofSocket s rfl rfl rfl rfl (fun open_ => ⟨open_, alive open_⟩) id (.inl idle)
    obtain ⟨asking, free, usable', served, given⟩ := unwatched.placed
    refine unwatched.frame rfl rfl ⟨?_, free, ?_, served, given⟩
    · intro r' s' mem
      obtain mem | mem := mem_append.mp mem
      · exact asking r' s' mem
      · cases mem_singleton.mp mem
    intro s'
    by_cases same : s' = s
    · subst same
      refine .inr ?_
      simp only [Function.update_self]
      exact usable
    refine (usable' s').imp_left fun idle => ⟨?_, idle.notFree, idle.notLive⟩
    simp only [map_append, mem_append, not_or]
    refine ⟨idle.noTick, ?_⟩
    simpa [Tick.socket] using same
  · exact finished.ofSocket s rfl rfl rfl rfl (by simp) id (.inl idle)

theorem destroyed_of_close (stepped : a.step config env (.close s) = some a') :
    (a.socket s).destroyed = true := by
  rw [State.step] at stepped
  split at stepped
  · rename_i open_
    exact open_.2.1
  · cases stepped

theorem destroyed_replace (old : s < a.nextSocket) (s' : Nat) :
    ((a.replace config s').socket s).destroyed = (a.socket s).destroyed := by
  have other : s ≠ a.nextSocket := Nat.ne_of_lt old
  have shifted (s' : Nat) (a : State) : (a.shift s').socket = a.socket := by
    rw [State.shift]
    split
    · rfl
    · rfl
  rw [State.replace]
  split
  · rfl
  rw [shifted]
  exact congrArg Socket.destroyed (createSocket_socket_of_ne (a := a.unlist s') _ other)

/-- One step keeps requests and sockets connected, if only ended requests release theirs. -/
theorem Exchanging.step (exchanging : Exchanging a) (sound : Sound config a) {action : Action}
    (begun : begins action = true) (finished : a.releasesFinished config action = true)
    (stepped : a.step config env action = some a') : Exchanging a' := by
  cases stepped_of_step stepped with
  | request options firstLine message =>
    have begun' (keepAlive : Bool) : OutgoingMessage.Begun
        { message with last := !keepAlive, shouldKeepAlive := keepAlive } :=
      of_decide_eq_true begun
    refine (exchanging.enter sound.pooled sound.ordered (begun' _)).addRequest
      (sound.pooled.enter rfl) ?_ options
    exact (sound.ordered.enter _).2.notServed
  | tick ticks => exact exchanging.runTick sound ticks finished
  | response message keepAlive => exact exchanging.onIncoming _ _ keepAlive
  | responseEnd responded unended has => exact exchanging.responseOnEnd sound.pooled unended has
  | abort => exact exchanging.markAborted _
  | abortSocket => exact (exchanging.markAborted _).destroy _
  | destroy old => exact exchanging.destroy _
  | close old destroyed listening =>
    rename_i s
    have marked := exchanging.markClosed s
    have closed := samePhases_markClosed s a
    have pooled := closed.pooled sound.pooled
    have ordered : Ordered (a.markClosed s) := sound.ordered.keep ⟨rfl, rfl, rfl, rfl, rfl⟩
    rw [pooled.removeSocket_eq old]
    refine (marked.replace pooled ordered s).closeListener ?_
    refine (destroyed_replace (a := a.markClosed s) old s).trans ?_
    simp only [State.markClosed, Function.update_self]
    exact destroyed
  | closeAlone old alone =>
    rename_i s
    refine (exchanging.markClosed s).closeListener ?_
    simp only [State.markClosed, Function.update_self]
    exact destroyed_of_close stepped
  | agentRemove listening message =>
    have old := (sound.pooled.known _ _ message).1
    exact (exchanging.removeSocket sound.pooled sound.ordered old 0).leave _
  | write known chunk encoding => exact exchanging.pass (exchanging.write env _ chunk encoding)
  | end_ known data encoding => exact exchanging.pass (exchanging.end_ env _ data encoding)

/-- **Whole exchanges.**  In every run in which no socket is released before its request has been
ended: whenever a socket is given to a request, those who had it have passed on all that they are;
and what has been written to a socket is what its requests have passed on, one after the other, each
of them whole, but for the last one, of which it is the beginning. -/
theorem exchange_of_run (run : Library.Run (step config env)
      (fun a action => begins action = true ∧ a.releasesFinished config action = true) .new a) :
    (∀ g ∈ a.given, g.incomplete = []) ∧
      ∀ s, (a.socket s).wire = ((a.socket s).attached.flatMap fun r => (a.request r).passed) ∧
        (∀ r ∈ (a.socket s).attached, (a.request r).passed <+: (a.request r).own.output) ∧
          ∀ r ∈ (a.socket s).attached.dropLast, (a.request r).message.finished = true ∧
            (a.request r).passed = (a.request r).own.output := by
  have holds : Sound config a ∧ Exchanging a := by
    refine run.invariant (fun a => Sound config a ∧ Exchanging a) ⟨.new config, .new⟩ ?_
    intro a a' action holds allowed stepped
    exact ⟨holds.1.step stepped, holds.2.step holds.1 allowed.1 allowed.2 stepped⟩
  obtain ⟨-, wired, -, placed⟩ := holds
  refine ⟨placed.given, fun s => ⟨wired.wire s, fun r _ => (wired.spoken r).passed, ?_⟩⟩
  intro r mem
  have whole := wired.whole s r mem
  rw [State.isWhole, Bool.and_eq_true, beq_iff_eq] at whole
  exact whole

end State

open State

/-- A request that is ended before its response ends, and the next one on the same socket -/
theorem exchange_of_two : ∃ a : State, a.given.map Given.socket = [0, 0] ∧
    (∀ g ∈ a.given, g.incomplete = []) ∧
      ∀ s, (a.socket s).wire = ((a.socket s).attached.flatMap fun r => (a.request r).passed) ∧
        (∀ r ∈ (a.socket s).attached, (a.request r).passed <+: (a.request r).own.output) ∧
          ∀ r ∈ (a.socket s).attached.dropLast, (a.request r).message.finished = true ∧
            (a.request r).passed = (a.request r).own.output := by
  obtain ⟨a, run, sockets⟩ := Library.Run.exists_of_exec (step .keeping .ascii)
    (fun a action => begins action = true ∧ a.releasesFinished .keeping action = true) .new
    (fun a => a.given.map Given.socket = [0, 0])
    [.get, .write 0 (.string (js "a")) none, .tick, .response 0 true, .end_ 0 none none,
      .responseEnd 0, .tick, .get] (by decide +kernel)
  exact ⟨a, sockets, exchange_of_run run⟩

/-- A response ends before its request does, and the next request gets the socket. -/
theorem incomplete_given : ¬∀ (config : Config) (env : Environment) (a : State),
      Library.Run (step config env) (fun _ action => begins action = true) .new a →
        (∀ g ∈ a.given, g.incomplete = []) ∧ ∀ s, (a.socket s).wire =
              ((a.socket s).attached.flatMap fun r => (a.request r).passed) ∧
            (∀ r ∈ (a.socket s).attached, (a.request r).passed <+: (a.request r).own.output) ∧
              ∀ r ∈ (a.socket s).attached.dropLast, (a.request r).message.finished = true ∧
                (a.request r).passed = (a.request r).own.output := by
  intro claim
  obtain ⟨a, run, given⟩ := Library.Run.exists_of_exec (step .keeping .ascii)
    (fun _ action => begins action = true) .new
    (fun a => a.given.any (!·.incomplete.isEmpty) = true)
    [.get, .tick, .write 0 (.string (js "a")) none, .response 0 true, .responseEnd 0, .tick, .get]
    (by decide +kernel)
  obtain ⟨g, mem, incomplete⟩ := List.any_eq_true.mp given
  rw [(claim .keeping .ascii a run).1 g mem] at incomplete
  cases incomplete

end IoJs.Agent
