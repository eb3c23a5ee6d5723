import IoJs.Cluster.RoundRobin
import Mathlib.Data.List.Count
import Mathlib.Data.List.Nodup

/-!
# Where the connections are

A connection that the master has accepted is in the queue of its `RoundRobinHandle`, or handed to a
worker that has not answered yet, or closed. The operations of the master move it from one place
to the other; while one of them does so, the connection is in its hands.
-/

namespace IoJs.Cluster

open List

/-- The connection that a worker reports to have accepted. -/
def Event.reported : Event → Option Handle
  | .replied _ handle true => some handle
  | _ => none

/-- The connection that a worker accepts. -/
def Event.taken : Event → Option Handle
  | .accepted _ handle => some handle
  | _ => none

namespace State

variable (s : State) (h : Handle)

/-- How often it is in the queue of its `RoundRobinHandle`. -/
def queued : Nat := (s.rrs h.home).handles.count (some h)

/-- How many hand-offs of it are outstanding. -/
def outstanding : Nat := (s.callbacks.map (·.2.handle)).count h

def arrivals : Nat := s.trace.count (.connection h)

def closings : Nat := s.trace.count (.closed h)

/-- How many workers have reported that they accepted it. -/
def reports : Nat := (s.trace.filterMap Event.reported).count h

/-- How many workers have accepted it. -/
def acceptances : Nat := (s.trace.filterMap Event.taken).count h

end State

/-- The socket has been listening. -/
def Socket.Started (socket : Socket) : Prop := socket = .listening ∨ socket = .closed

/-- Every connection is in one place, or in hand. -/
structure Custody (hand : List Handle) (s : State) : Prop where
  home : ∀ r h, some h ∈ (s.rrs r).handles → h.home = r
  callbacks : ∀ e ∈ s.callbacks, e.2.handle.home = e.2.rr ∧ (s.rrs e.2.rr).socket.Started
  located : ∀ h, s.queued h + s.outstanding h + s.closings h + hand.count h = s.arrivals h
  once : ∀ h, s.arrivals h ≤ 1
  numbered : ∀ h, s.arrivals h ≠ 0 → h.id < s.connections
  reported : ∀ h, s.reports h ≤ s.closings h
  -- what is closed without a report
  shut : ∀ h, s.reports h < s.closings h → (s.rrs h.home).socket = .closed ∧ (s.rrs h.home).all = []
  table : ∀ e ∈ s.handles, (s.rrs e.2).socket ≠ .closed ∧ (s.rrs e.2).key = e.1 ∧ e.2 < s.count
  unused : ∀ r, s.count ≤ r → (s.rrs r).socket = .binding
  quiet : ∀ r, ¬ (s.rrs r).socket.Started → (s.rrs r).handles = []

namespace State

section Counts

variable (s : State) (h : Handle)

@[simp]
theorem rrs_setRR (r : Nat) (rr : RoundRobinHandle) : (s.setRR r rr).rrs r = rr :=
  Function.update_self _ _ _

theorem rrs_setRR_of_ne {r r' : Nat} (other : r' ≠ r) (rr : RoundRobinHandle) :
    (s.setRR r rr).rrs r' = s.rrs r' :=
  Function.update_of_ne other _ _

theorem queued_setRR (r : Nat) (rr : RoundRobinHandle) : (s.setRR r rr).queued h =
    if h.home = r then rr.handles.count (some h) else s.queued h := by
  by_cases here : h.home = r
  · simp [queued, setRR, here]
  · simp [queued, setRR, here]

section

variable (events : List Event)

theorem arrivals_log : (s.log events).arrivals h = s.arrivals h + events.count (.connection h) :=
  count_append

theorem closings_log : (s.log events).closings h = s.closings h + events.count (.closed h) :=
  count_append

theorem reports_log :
    (s.log events).reports h = s.reports h + (events.filterMap Event.reported).count h := by
  simp [reports, log]

theorem acceptances_log : (s.log events).acceptances h =
    s.acceptances h + (events.filterMap Event.taken).count h := by
  simp [acceptances, log]

end

end Counts

theorem handoff_cases (s : State) (r : Nat) (worker : WorkerId) :
    (∃ h handles, (s.rrs r).handles = some h :: handles ∧
      s.handoff r worker = (s.setRR r { s.rrs r with handles }).sendWith worker
        (fun seq => .newconn seq (s.rrs r).key h) { rr := r, worker, handle := h }) ∨
    (∃ handles free, ((s.rrs r).handles = handles ∨ (s.rrs r).handles = none :: handles) ∧
      s.handoff r worker = s.setRR r { s.rrs r with handles, free }) ∨
    s.handoff r worker = s := by
  by_cases member : worker ∈ (s.rrs r).all
  · rcases handles : (s.rrs r).handles with _ | ⟨_ | h, rest⟩
    · refine .inr (.inl ⟨[], (s.rrs r).free ++ [worker], .inl rfl, ?_⟩)
      simp [handoff, member, handles]
    · refine .inr (.inl ⟨rest, (s.rrs r).free ++ [worker], .inr rfl, ?_⟩)
      simp [handoff, member, handles]
    refine .inl ⟨h, rest, rfl, ?_⟩
    simp [handoff, member, handles]
  · exact .inr (.inr (if_neg member))

end State

namespace Custody

open State

variable {hand hand' : List Handle} {s : State} {r : Nat} {rr : RoundRobinHandle} {s' : State}

theorem initial : Custody [] State.initial := by
  refine ⟨?_, ?_, ?_, ?_, ?_, ?_, ?_, ?_, ?_, ?_⟩
  · intro r h member
    cases member
  · intro e member
    cases member
  · intro h
    rfl
  · intro h
    exact Nat.zero_le 1
  · intro h arrived
    exact absurd rfl arrived
  · intro h
    exact Nat.le_refl 0
  · intro h more
    cases more
  · intro e member
    cases member
  · intro r _
    rfl
  intro r _
  rfl

theorem made (custody : Custody hand s) (started : (s.rrs r).socket.Started) : r < s.count := by
  by_contra large
  rw [custody.unused r (Nat.not_lt.mp large)] at started
  rcases started with impossible | impossible
  · cases impossible
  · cases impossible

theorem setRR (custody : Custody hand s) (home : ∀ h, some h ∈ rr.handles → h.home = r)
    (moved : ∀ h, (if h.home = r then rr.handles.count (some h) else 0) + hand'.count h =
      (if h.home = r then (s.rrs r).handles.count (some h) else 0) + hand.count h)
    (key : rr.key = (s.rrs r).key)
    (closed : (s.rrs r).socket = .closed → rr.socket = .closed ∧ rr.all = (s.rrs r).all)
    (started : (s.rrs r).socket.Started → rr.socket.Started)
    (quiet : ¬ rr.socket.Started → rr.handles = [])
    (open_ : ∀ e ∈ s.handles, e.2 = r → rr.socket ≠ .closed) (made : r < s.count) :
    Custody hand' (s.setRR r rr) := by
  have at_ : ∀ r', (s.setRR r rr).rrs r' = if r' = r then rr else s.rrs r' := by
    intro r'
    simp only [State.setRR, Function.update_apply]
  refine ⟨?_, ?_, ?_, custody.once, custody.numbered, custody.reported, ?_, ?_, ?_, ?_⟩
  · intro r' h member
    rw [at_] at member
    split_ifs at member with here
    · rw [here]
      exact home h member
    · exact custody.home r' h member
  · intro e member
    obtain ⟨eq, before⟩ := custody.callbacks e member
    rw [at_]
    split_ifs with here
    · rw [here] at before
      exact ⟨eq, started before⟩
    · exact ⟨eq, before⟩
  · intro h
    have before := custody.located h
    have change := moved h
    have same : (s.setRR r rr).outstanding h = s.outstanding h := rfl
    have same' : (s.setRR r rr).closings h = s.closings h := rfl
    have same'' : (s.setRR r rr).arrivals h = s.arrivals h := rfl
    rw [queued_setRR, same, same', same'']
    by_cases here : h.home = r
    · rw [if_pos here, if_pos here] at change
      rw [queued, here] at before
      rw [if_pos here]
      omega
    rw [if_neg here, if_neg here] at change
    rw [if_neg here]
    omega
  · intro h more
    have before := custody.shut h more
    rw [at_]
    split_ifs with here
    · grind
    · exact before
  · intro e member
    have before := custody.table e member
    rw [at_]
    split_ifs with here
    · rw [here] at before
      exact ⟨open_ e member here, key.trans before.2.1, here ▸ made⟩
    · exact before
  · intro r' large
    have other : r' ≠ r := by
      intro here
      rw [here] at large
      exact Nat.not_lt.mpr large made
    simpa [at_, other] using custody.unused r' large
  intro r' early
  rw [at_] at early ⊢
  split_ifs at early ⊢ with here
  · exact quiet early
  · exact custody.quiet r' early

theorem requeue (custody : Custody hand s) (made : r < s.count)
    {handles : List (Option Handle)} (free : List WorkerId)
    (home : ∀ h, some h ∈ handles → h.home = r)
    (moved : ∀ h, h.home = r → handles.count (some h) + hand'.count h =
      (s.rrs r).handles.count (some h) + hand.count h)
    (others : ∀ h, h.home ≠ r → hand'.count h = hand.count h)
    (quiet : ¬ (s.rrs r).socket.Started → handles = []) :
    Custody hand' (s.setRR r { s.rrs r with handles, free }) := by
  refine custody.setRR home ?_ rfl (fun socket => ⟨socket, rfl⟩) (fun started => started) quiet ?_
    made
  · intro h
    by_cases here : h.home = r
    · rw [if_pos here, if_pos here]
      exact moved h here
    · simp [here, others h here]
  intro e member here
  exact here ▸ (custody.table e member).1

theorem sendWith {h : Handle} (custody : Custody (h :: hand) s)
    (started : (s.rrs r).socket.Started) (home : h.home = r) (worker : WorkerId)
    (message : Nat → ToWorker) :
    Custody hand (s.sendWith worker message { rr := r, worker, handle := h }) := by
  refine ⟨custody.home, ?_, ?_, custody.once, custody.numbered, custody.reported, custody.shut,
    custody.table, custody.unused, custody.quiet⟩
  · intro e member
    rcases mem_append.mp member with before | here
    · exact custody.callbacks e before
    obtain rfl := mem_singleton.mp here
    exact ⟨home, started⟩
  intro h'
  have before := custody.located h'
  have more : (s.sendWith worker message { rr := r, worker, handle := h }).outstanding h' =
      s.outstanding h' + [h].count h' := by simp [outstanding, State.sendWith, State.send]
  have same : (s.sendWith worker message { rr := r, worker, handle := h }).queued h' =
      s.queued h' := rfl
  have same' : (s.sendWith worker message { rr := r, worker, handle := h }).closings h' =
      s.closings h' := rfl
  have same'' : (s.sendWith worker message { rr := r, worker, handle := h }).arrivals h' =
      s.arrivals h' := rfl
  rw [← singleton_append, count_append] at before
  omega

theorem handoff (custody : Custody hand s) (made : r < s.count) (worker : WorkerId) :
    Custody hand (s.handoff r worker) := by
  have home := custody.home r
  obtain ⟨h, rest, handles, eq⟩ | ⟨rest, free, handles, eq⟩ | eq := s.handoff_cases r worker
  · rw [handles] at home
    have here : h.home = r := home h mem_cons_self
    have started : (s.rrs r).socket.Started := by
      by_contra early
      simp [custody.quiet r early] at handles
    have taken : Custody (h :: hand) (s.setRR r { s.rrs r with handles := rest }) := by
      refine custody.requeue made _ (fun h later => home h (mem_cons_of_mem _ later)) ?_ ?_ ?_
      · grind
      · intro h' elsewhere
        rw [count_cons_of_ne]
        rintro rfl
        exact elsewhere here
      · exact fun early => absurd started early
    rw [eq]
    refine taken.sendWith ?_ here worker _
    rw [rrs_setRR]
    exact started
  · rw [eq]
    refine custody.requeue made free ?_ ?_ (fun _ _ => rfl) ?_
    · intro h later
      rcases handles with same | less
      · exact home h (same ▸ later)
      · exact home h (less ▸ mem_cons_of_mem _ later)
    · intro h _
      rcases handles with same | less
      · rw [same]
      · simp [less]
    · grind [custody.quiet]
  rw [eq]
  exact custody

theorem distribute {handle : Option Handle} (custody : Custody (handle.toList ++ hand) s)
    (started : (s.rrs r).socket.Started) (here : ∀ h ∈ handle, h.home = r) :
    Custody hand (s.distribute r handle) := by
  have made := custody.made started
  have put : ∀ free, Custody hand (s.setRR r
      { s.rrs r with handles := (s.rrs r).handles ++ [handle], free }) := by
    intro free
    refine custody.requeue made free ?_ ?_ ?_ (fun early => absurd started early)
    · intro h member
      rcases mem_append.mp member with before | new
      · exact custody.home r h before
      · exact here h (mem_singleton.mp new).symm
    · intro h _
      cases handle with
      | none => simp
      | some h' => grind
    intro h elsewhere
    cases handle with
    | none => simp
    | some h' => grind
  rw [State.distribute]
  rcases (s.rrs r).free with _ | ⟨worker, free⟩
  · exact put _
  · exact (put free).handoff made worker

section

variable (custody : Custody hand s)
include custody

theorem log {events : List Event}
    (moved : ∀ h, events.count (.closed h) + hand'.count h = hand.count h)
    (arrivals : ∀ h, events.count (.connection h) = 0)
    (reports : ∀ h, (events.filterMap Event.reported).count h ≤ events.count (.closed h))
    (shut : ∀ h, (events.filterMap Event.reported).count h < events.count (.closed h) →
      (s.rrs h.home).socket = .closed ∧ (s.rrs h.home).all = []) :
    Custody hand' (s.log events) := by
  have same : ∀ h, (s.log events).arrivals h = s.arrivals h := by simp [arrivals_log, arrivals]
  refine ⟨custody.home, custody.callbacks, ?_, ?_, ?_, ?_, ?_, custody.table, custody.unused,
    custody.quiet⟩
  · intro h
    have before := custody.located h
    have change := moved h
    have here : (s.log events).queued h = s.queued h := rfl
    have here' : (s.log events).outstanding h = s.outstanding h := rfl
    rw [same, closings_log, here, here']
    omega
  · intro h
    rw [same]
    exact custody.once h
  · intro h
    rw [same]
    exact custody.numbered h
  · intro h
    have before := custody.reported h
    have change := reports h
    rw [closings_log, reports_log]
    omega
  intro h more
  rw [closings_log, reports_log] at more
  by_cases now : (events.filterMap Event.reported).count h < events.count (.closed h)
  · exact shut h now
  · exact custody.shut h (by omega)

theorem arrive (r : Nat) : Custody (s.accept r :: hand) (s.arrive (s.accept r)) := by
  have count : ∀ h, (s.arrive (s.accept r)).arrivals h = s.arrivals h + [s.accept r].count h := by
    intro h
    rw [State.arrive, arrivals_log, count_singleton, count_singleton]
    by_cases new : s.accept r = h
    · simp [new]
      rfl
    simp [new]
    rfl
  have closings : ∀ h, (s.arrive (s.accept r)).closings h = s.closings h := by
    intro h
    rw [State.arrive, closings_log]
    rfl
  have reports : ∀ h, (s.arrive (s.accept r)).reports h = s.reports h := by
    intro h
    rw [State.arrive, reports_log]
    rfl
  -- the number has not been given yet
  have fresh : s.arrivals (s.accept r) = 0 := by
    by_contra some_
    exact absurd (custody.numbered _ some_) (Nat.lt_irrefl _)
  refine ⟨custody.home, custody.callbacks, ?_, ?_, ?_, ?_, ?_, custody.table, custody.unused,
    custody.quiet⟩
  · intro h
    have before := custody.located h
    have here : (s.arrive (s.accept r)).queued h = s.queued h := rfl
    have here' : (s.arrive (s.accept r)).outstanding h = s.outstanding h := rfl
    rw [count, closings, here, here', ← singleton_append, count_append]
    omega
  · intro h
    have before := custody.once h
    rw [count, count_singleton]
    by_cases new : s.accept r = h
    · simp [← new, fresh]
    · simpa [new] using before
  · intro h some_
    rw [count, count_singleton] at some_
    by_cases new : s.accept r = h
    · rw [← new]
      exact Nat.lt_succ_self s.connections
    · exact Nat.lt_succ_of_lt (custody.numbered h (by simpa [new] using some_))
  · intro h
    rw [closings, reports]
    exact custody.reported h
  intro h more
  rw [closings, reports] at more
  exact custody.shut h more

theorem of_eq (rrs : s'.rrs = s.rrs) (count : s'.count = s.count) (handles : s'.handles ⊆ s.handles)
    (callbacks : s'.callbacks = s.callbacks) (connections : s'.connections = s.connections)
    (trace : s'.trace = s.trace) : Custody hand s' := by
  have queued : ∀ h, s'.queued h = s.queued h := by simp [State.queued, rrs]
  have outstanding : ∀ h, s'.outstanding h = s.outstanding h := by
    simp [State.outstanding, callbacks]
  have arrivals : ∀ h, s'.arrivals h = s.arrivals h := by simp [State.arrivals, trace]
  have closings : ∀ h, s'.closings h = s.closings h := by simp [State.closings, trace]
  have reports : ∀ h, s'.reports h = s.reports h := by simp [State.reports, trace]
  refine ⟨?_, ?_, ?_, ?_, ?_, ?_, ?_, ?_, ?_, ?_⟩
  · rw [rrs]
    exact custody.home
  · rw [callbacks, rrs]
    exact custody.callbacks
  · intro h
    rw [queued, outstanding, closings, arrivals]
    exact custody.located h
  · intro h
    rw [arrivals]
    exact custody.once h
  · intro h
    rw [arrivals, connections]
    exact custody.numbered h
  · intro h
    rw [reports, closings]
    exact custody.reported h
  · intro h
    rw [reports, closings, rrs]
    exact custody.shut h
  · intro e member
    rw [rrs, count]
    exact custody.table e (handles member)
  · rw [rrs, count]
    exact custody.unused
  rw [rrs]
  exact custody.quiet

theorem send (worker : WorkerId) (message : Nat → ToWorker) :
    Custody hand (s.send worker message) :=
  custody.of_eq rfl rfl (List.Subset.refl _) rfl rfl rfl

theorem forget (key : Key) : Custody hand { s with handles := s.handles.filter (·.1 ≠ key) } :=
  custody.of_eq rfl rfl (filter_subset_self _) rfl rfl rfl

theorem reply {key : Key} {waiting : Waiting} {errno : Int}
    (replied : s.reply key waiting errno = some s') : Custody hand s' ∧ s'.count = s.count := by
  rw [State.reply] at replied
  split_ifs at replied with known failed
  · cases replied
    exact ⟨(custody.forget key).send _ _, rfl⟩
  cases replied
  exact ⟨custody.send _ _, rfl⟩

end

theorem count_handoff (s : State) (r : Nat) (worker : WorkerId) :
    (s.handoff r worker).count = s.count := by
  obtain ⟨h, rest, -, eq⟩ | ⟨rest, free, -, eq⟩ | eq := s.handoff_cases r worker
  · rw [eq]
    rfl
  · rw [eq]
    rfl
  · rw [eq]

section

variable (custody : Custody hand s)
include custody

theorem done (made : r < s.count) (waiting : List Waiting) : Custody hand (s.done r waiting) := by
  induction waiting generalizing s with
  | nil => exact custody
  | cons w waiting ih =>
    rw [State.done]
    cases replied : s.reply (s.rrs r).key w 0 with
    | none => exact custody
    | some s' =>
      obtain ⟨custody', count⟩ := custody.reply replied
      have made' : r < s'.count := count ▸ made
      apply ih (custody'.handoff made' w.worker)
      rw [count_handoff]
      exact made'

theorem failures (r : Nat) (errno : Int) (waiting : List Waiting) :
    Custody hand (s.failures r errno waiting) := by
  induction waiting generalizing s with
  | nil => exact custody
  | cons w waiting ih =>
    rw [State.failures]
    cases replied : s.reply (s.rrs r).key w errno with
    | none => exact custody
    | some s' => exact ih (custody.reply replied).1

theorem enlist (made : r < s.count)
    (open_ : (s.rrs r).socket ≠ .closed) (key : rr.key = (s.rrs r).key)
    (handles : rr.handles = (s.rrs r).handles) (socket : rr.socket ≠ .closed)
    (started : (s.rrs r).socket.Started → rr.socket.Started) :
    Custody hand (s.setRR r rr) := by
  refine custody.setRR ?_ ?_ key (fun closed => absurd closed open_) started ?_
    (fun _ _ _ => socket) made
  · rw [handles]
    exact custody.home r
  · intro h
    rw [handles]
  intro early
  rw [handles]
  exact custody.quiet r (fun before => early (started before))

theorem add (made : r < s.count)
    (open_ : (s.rrs r).socket ≠ .closed) (waiting : Waiting) : Custody hand (s.add r waiting) := by
  rw [State.add]
  split_ifs with member
  · exact custody
  cases socket : (s.rrs r).socket with
  | listening =>
    have enlisted : Custody hand (s.setRR r
        { s.rrs r with all := (s.rrs r).all ++ [waiting.worker], socket := .listening }) :=
      custody.enlist made open_ rfl rfl (fun closed => open_ (socket ▸ closed)) (socket ▸ id)
    exact enlisted.done made [waiting]
  | closed => exact absurd socket open_
  | binding | failed =>
    exact custody.enlist made open_ rfl rfl (fun closed => open_ (socket ▸ closed)) (socket ▸ id)

theorem create (key : Key) : Custody hand { s.setRR s.count (.new key) with
    count := s.count + 1
    handles := s.handles ++ [(key, s.count)] } := by
  have socket := custody.unused s.count (Nat.le_refl _)
  have early : ¬ (s.rrs s.count).socket.Started := by
    intro started
    exact Nat.lt_irrefl _ (custody.made started)
  have handles := custody.quiet s.count early
  have at_ : ∀ r, r ≠ s.count → (s.setRR s.count (.new key)).rrs r = s.rrs r :=
    fun r other => rrs_setRR_of_ne s other _
  have new := rrs_setRR s s.count (.new key)
  have queued : ∀ h, (s.setRR s.count (.new key)).queued h = s.queued h := by
    intro h
    rw [queued_setRR]
    split_ifs with here
    · rw [State.queued, here, handles]
      rfl
    · rfl
  refine ⟨?_, ?_, ?_, custody.once, custody.numbered, custody.reported, ?_, ?_, ?_, ?_⟩
  · intro r h member
    by_cases here : r = s.count
    · subst here
      rw [new] at member
      cases member
    rw [at_ r here] at member
    exact custody.home r h member
  · intro e member
    obtain ⟨home, started⟩ := custody.callbacks e member
    rw [at_ _ (Nat.ne_of_lt (custody.made started))]
    exact ⟨home, started⟩
  · intro h
    have before := custody.located h
    rw [← queued] at before
    exact before
  · intro h more
    obtain ⟨closed, all⟩ := custody.shut h more
    have other : h.home ≠ s.count := by grind
    rw [at_ _ other]
    exact ⟨closed, all⟩
  · intro e member
    rcases mem_append.mp member with before | here
    · obtain ⟨open_, eq, made⟩ := custody.table e before
      rw [at_ _ (Nat.ne_of_lt made)]
      exact ⟨open_, eq, Nat.lt_succ_of_lt made⟩
    obtain rfl := mem_singleton.mp here
    rw [new]
    exact ⟨by simp [RoundRobinHandle.new], rfl, Nat.lt_succ_self _⟩
  · intro r large
    have other : r ≠ s.count := Nat.ne_of_gt large
    rw [at_ r other]
    exact custody.unused r (Nat.le_of_lt large)
  intro r
  by_cases here : r = s.count
  · rw [here, new]
    exact fun _ => rfl
  rw [at_ r here]
  exact custody.quiet r

theorem queryServer (key : Key) (waiting : Waiting) : Custody hand (s.queryServer key waiting) := by
  rw [State.queryServer]
  cases found : s.handles.find? (·.1 = key) with
  | some entry =>
    obtain ⟨open_, -, made⟩ := custody.table entry (mem_of_find?_eq_some found)
    exact custody.add made open_ waiting
  | none =>
    have created := custody.create key
    refine created.add ?_ ?_ waiting
    · exact Nat.lt_succ_self _
    simp [RoundRobinHandle.new]

end

end Custody

/-! ## The last worker -/

theorem count_shifted (handles : List (Option Handle)) (h : Handle) :
    (State.shifted handles).1.count h + (State.shifted handles).2.count (some h) =
      handles.count (some h) := by
  induction handles with
  | nil => rfl
  | cons first handles ih =>
    cases first with
    | none => exact Nat.zero_add _
    | some h' =>
      have eq : State.shifted (some h' :: handles) =
        (h' :: (State.shifted handles).1, (State.shifted handles).2) := rfl
      rw [eq]
      by_cases same : h' = h
      · grind
      · rw [count_cons_of_ne same, count_cons_of_ne (by simpa using same), ih]

variable {handles : List (Option Handle)} {h : Handle}

theorem mem_of_mem_shifted (member : some h ∈ (State.shifted handles).2) : some h ∈ handles := by
  have count := count_shifted handles h
  have here := count_pos_iff.mpr member
  exact count_pos_iff.mp (by omega)

theorem mem_of_mem_closed (member : h ∈ (State.shifted handles).1) : some h ∈ handles := by
  have count := count_shifted handles h
  have here := count_pos_iff.mpr member
  exact count_pos_iff.mp (by omega)

theorem count_map_closed (handles : List Handle) (h : Handle) :
    (handles.map Event.closed).count (.closed h) = handles.count h :=
  count_map_of_injective _ _ (fun _ _ same => Event.closed.inj same) _

variable {hand : List Handle} {s : State}

theorem Custody.shutDown (custody : Custody hand s) {r : Nat}
    (made : r < s.count) (open_ : (s.rrs r).socket ≠ .closed) {all free : List WorkerId}
    (nobody : all = []) (unlisted : ∀ e ∈ s.handles, e.2 ≠ r) :
    Custody hand ((s.log ((State.shifted (s.rrs r).handles).1.map .closed)).setRR r
      { s.rrs r with
        all, free
        handles := (State.shifted (s.rrs r).handles).2
        socket := .closed }) := by
  have opened : Custody ((State.shifted (s.rrs r).handles).1 ++ hand) (s.setRR r
      { s.rrs r with
        all, free
        handles := (State.shifted (s.rrs r).handles).2
        socket := .closed }) := by
    refine custody.setRR ?_ ?_ rfl (fun closed => absurd closed open_) (fun _ => .inr rfl)
      (fun early => absurd (.inr rfl) early) (fun e member here => absurd here (unlisted e member))
      made
    · intro h member
      exact custody.home r h (mem_of_mem_shifted member)
    intro h
    have count := count_shifted (s.rrs r).handles h
    rw [count_append]
    by_cases here : h.home = r
    · rw [if_pos here, if_pos here]
      dsimp only
      omega
    rw [if_neg here, if_neg here, count_eq_zero.mpr, Nat.zero_add]
    intro member
    exact here (custody.home r h (mem_of_mem_closed member))
  refine opened.log ?_ ?_ ?_ ?_
  · simp [count_map_closed]
  · intro h
    rw [count_eq_zero]
    simp
  · intro h
    exact Nat.le_trans (Nat.le_of_eq (by simp [Function.comp_def, Event.reported])) (Nat.zero_le _)
  intro h more
  have member : h ∈ (State.shifted (s.rrs r).handles).1 := by grind [count_map_closed]
  rw [custody.home r h (mem_of_mem_closed member), State.rrs_setRR]
  exact ⟨rfl, nobody⟩

theorem Custody.removeKey (custody : Custody hand s)
    {entry : Key × Nat} (member : entry ∈ s.handles) (worker : WorkerId) :
    Custody hand (s.removeKey entry worker).1 := by
  obtain ⟨open_, key, made⟩ := custody.table entry member
  have removed := s.removed entry worker
  generalize s.removeKey entry worker = result at removed ⊢
  cases removed with
  | absent => exact custody
  | left => exact custody.enlist made open_ rfl rfl open_ id
  | closed listed last =>
    refine (custody.forget entry.1).shutDown made open_ last ?_
    intro e member' here
    obtain ⟨inTable, ne⟩ := mem_filter.mp member'
    have eq := (custody.table e inTable).2.1
    rw [here, key] at eq
    simp [eq] at ne
  | threw listed last early =>
    have notYet : ¬(s.rrs entry.2).socket.Started := by
      rintro (started | started)
      · exact early started
      · exact open_ started
    -- there is nothing to close yet
    have nothing := custody.quiet entry.2 notYet
    have same : s.log [] = s := by simp [State.log]
    simp only [nothing, State.shifted, map_nil, same]
    refine custody.enlist made open_ ?_ ?_ open_ id
    · rfl
    · exact nothing.symm

end IoJs.Cluster
