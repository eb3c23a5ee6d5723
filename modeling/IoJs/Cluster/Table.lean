import IoJs.Cluster.Handoff

/-!
# The table of the round-robin handles

`handles` has each key once, and every `RoundRobinHandle` that binds or listens is there under its
key (`Tabled`). What hands connections to the workers does not touch the table, nor who has to do
with a `RoundRobinHandle` (`SameTable`).
-/

namespace IoJs.Cluster

open List Option

theorem State.reply_zero {s s' : State} {key : Key} {waiting : Waiting}
    (replied : s.reply key waiting 0 = some s') :
    s' = s.send waiting.worker fun _ => .reply waiting.seq 0 key := by
  rw [State.reply] at replied
  split_ifs at replied with there wrong
  · exact absurd rfl wrong
  · exact (some.inj replied).symm

/-- Two states that differ in nothing but connections and messages -/
structure SameTable (s s' : State) : Prop where
  handles : s'.handles = s.handles
  count : s'.count = s.count
  workers : s'.workers = s.workers
  toMaster : s'.toMaster = s.toMaster
  key : ∀ r, (s'.rrs r).key = (s.rrs r).key
  all : ∀ r, (s'.rrs r).all = (s.rrs r).all
  socket : ∀ r, (s'.rrs r).socket = (s.rrs r).socket
  waiting : ∀ r, (s'.rrs r).waiting = (s.rrs r).waiting

namespace SameTable

open State

variable {s s' s'' : State}

theorem refl (s : State) : SameTable s s :=
  ⟨rfl, rfl, rfl, rfl, fun _ => rfl, fun _ => rfl, fun _ => rfl, fun _ => rfl⟩

theorem trans (first : SameTable s s') (second : SameTable s' s'') : SameTable s s'' where
  handles := second.handles.trans first.handles
  count := second.count.trans first.count
  workers := second.workers.trans first.workers
  toMaster := second.toMaster.trans first.toMaster
  key r := (second.key r).trans (first.key r)
  all r := (second.all r).trans (first.all r)
  socket r := (second.socket r).trans (first.socket r)
  waiting r := (second.waiting r).trans (first.waiting r)

section

variable (s : State)

theorem requeue (r : Nat) (handles : List (Option Handle)) (free : List WorkerId) :
    SameTable s (s.setRR r { s.rrs r with handles, free }) := by
  refine ⟨rfl, rfl, rfl, rfl, ?_, ?_, ?_, ?_⟩
  all_goals
    intro r'
    by_cases here : r' = r
    · subst here
      rw [rrs_setRR]
    · rw [rrs_setRR_of_ne _ here]

theorem send (w : WorkerId) (message : Nat → ToWorker) : SameTable s (s.send w message) :=
  ⟨rfl, rfl, rfl, rfl, fun _ => rfl, fun _ => rfl, fun _ => rfl, fun _ => rfl⟩

theorem sendWith (w : WorkerId) (message : Nat → ToWorker) (callback : Handoff) :
    SameTable s (s.sendWith w message callback) :=
  ⟨rfl, rfl, rfl, rfl, fun _ => rfl, fun _ => rfl, fun _ => rfl, fun _ => rfl⟩

theorem log (events : List Event) : SameTable s (s.log events) :=
  ⟨rfl, rfl, rfl, rfl, fun _ => rfl, fun _ => rfl, fun _ => rfl, fun _ => rfl⟩

theorem handoff (r : Nat) (w : WorkerId) : SameTable s (s.handoff r w) := by
  obtain ⟨h, rest, -, eq⟩ | ⟨rest, free, -, eq⟩ | eq := s.handoff_cases r w
  · rw [eq]
    exact (requeue s r rest (s.rrs r).free).trans (sendWith _ _ _ _)
  · rw [eq]
    exact requeue s r rest free
  rw [eq]
  exact refl s

theorem distribute (r : Nat) (handle : Option Handle) : SameTable s (s.distribute r handle) := by
  rw [State.distribute]
  split
  · exact requeue s r _ _
  · exact (requeue s r _ _).trans (handoff _ r _)

theorem answered (h : Handoff) (accepted : Bool) : SameTable s (s.answered h accepted) := by
  cases accepted with
  | true => exact ((log s _).trans (log _ _)).trans (handoff _ _ _)
  | false => exact ((log s _).trans (distribute _ _ _)).trans (handoff _ _ _)

end

theorem done (r : Nat) (waiting : List Waiting) : ∀ s : State, SameTable s (s.done r waiting) := by
  induction waiting with
  | nil => exact refl
  | cons first waiting ih =>
    intro s
    rw [State.done]
    split
    · exact refl s
    rename_i s' replied
    rw [reply_zero replied]
    exact ((send s _ _).trans (handoff _ r _)).trans (ih _)

end SameTable

theorem State.removeKey_frame (s : State) (entry : Key × Nat) (w : WorkerId) :
    (∀ r ≠ entry.2, (s.removeKey entry w).1.rrs r = s.rrs r) ∧
      (s.removeKey entry w).1.handles ⊆ s.handles ∧
        (s.removeKey entry w).1.workers = s.workers := by
  have removed := s.removed entry w
  generalize s.removeKey entry w = result at removed ⊢
  cases removed with
  | absent => exact ⟨fun _ _ => rfl, List.Subset.refl _, rfl⟩
  | left | threw => exact ⟨fun r other => State.rrs_setRR_of_ne _ other _, List.Subset.refl _, rfl⟩
  | closed => exact ⟨fun r other => State.rrs_setRR_of_ne _ other _, filter_subset_self _, rfl⟩

/-- What holds of the table at any time -/
structure Tabled (s : State) : Prop where
  keys : (s.handles.map (·.1)).Nodup
  bound : ∀ r < s.count, (s.rrs r).socket = .binding ∨ (s.rrs r).socket = .listening →
    ((s.rrs r).key, r) ∈ s.handles

namespace Tabled

open State

variable {s s' : State} {r : Nat} {w : WorkerId} {entry : Key × Nat} {key : Key}

theorem initial : Tabled State.initial where
  keys := nodup_nil
  bound _ small := absurd small (Nat.not_lt_zero _)

section

variable (tabled : Tabled s)
include tabled

theorem keep (same : SameTable s s') : Tabled s' := by
  constructor
  · rw [same.handles]
    exact tabled.keys
  intro r
  rw [same.count, same.socket, same.key, same.handles]
  exact tabled.bound r

theorem of_eq (rrs : s'.rrs = s.rrs) (handles : s'.handles = s.handles)
    (count : s'.count = s.count) : Tabled s' := by
  constructor
  · rw [handles]
    exact tabled.keys
  rw [rrs, handles, count]
  exact tabled.bound

theorem owner (mem : entry ∈ s.handles) : ∀ e ∈ s.handles, e.1 = entry.1 → e.2 = entry.2 := by
  intro e mem' same
  exact congrArg Prod.snd (inj_on_of_nodup_map tabled.keys mem' mem same)

theorem setRR {rr : RoundRobinHandle} (key : rr.key = (s.rrs r).key)
    (bound : rr.socket = .binding ∨ rr.socket = .listening →
      (s.rrs r).socket = .binding ∨ (s.rrs r).socket = .listening) : Tabled (s.setRR r rr) := by
  refine ⟨tabled.keys, ?_⟩
  intro r' small socket
  by_cases here : r' = r
  · subst here
    rw [rrs_setRR] at socket ⊢
    rw [key]
    exact tabled.bound r' small (bound socket)
  rw [rrs_setRR_of_ne _ here] at socket ⊢
  exact tabled.bound r' small socket

theorem unlist (owner : ∀ e ∈ s.handles, e.1 = key → e.2 = r)
    (socket : (s.rrs r).socket ≠ .binding ∧ (s.rrs r).socket ≠ .listening) :
    Tabled { s with handles := s.handles.filter (·.1 ≠ key) } := by
  refine ⟨tabled.keys.sublist (filter_sublist.map _), ?_⟩
  intro r' small open_
  have listed := tabled.bound r' small open_
  rw [mem_filter, decide_eq_true_eq]
  refine ⟨listed, ?_⟩
  intro same
  obtain rfl := owner _ listed same
  obtain binding | listening := open_
  · exact socket.1 binding
  · exact socket.2 listening

end

theorem failures (errno : Int) (waiting : List Waiting) : ∀ {s : State}, Tabled s →
    (∀ e ∈ s.handles, e.1 = (s.rrs r).key → e.2 = r) → (s.rrs r).socket = .failed →
    Tabled (s.failures r errno waiting) := by
  induction waiting with
  | nil =>
    intro s tabled _ _
    exact tabled
  | cons first waiting ih =>
    intro s tabled owner failed
    rw [State.failures, State.reply]
    by_cases there : s.handles.any (·.1 = (s.rrs r).key) = true
    · rw [if_pos there]
      by_cases wrong : errno ≠ 0
      · simp only [if_pos wrong]
        have gone : Tabled { s with handles := s.handles.filter (·.1 ≠ (s.rrs r).key) } := by
          refine tabled.unlist owner ?_
          rw [failed]
          exact ⟨by simp, by simp⟩
        refine ih (gone.keep (.send _ _ _)) ?_ failed
        exact fun e mem => owner e (mem_filter.mp mem).1
      simp only [if_neg wrong]
      exact ih (tabled.keep (.send _ _ _)) owner failed
    rw [if_neg there]
    exact tabled

theorem add (tabled : Tabled s) (waiting : Waiting) : Tabled (s.add r waiting) := by
  rw [State.add]
  split_ifs
  · exact tabled
  dsimp only
  split
  · refine Tabled.keep ?_ (.done r _ _)
    exact tabled.setRR rfl id
  · exact tabled.setRR rfl id
  · exact tabled.setRR rfl id

theorem create (tabled : Tabled s) (fresh : ∀ e ∈ s.handles, e.1 ≠ key) :
    Tabled { s.setRR s.count (.new key) with
      count := s.count + 1
      handles := s.handles ++ [(key, s.count)] } := by
  constructor
  · rw [map_append, nodup_append']
    refine ⟨tabled.keys, nodup_singleton _, ?_⟩
    simp only [map_cons, map_nil, disjoint_singleton]
    intro mem
    obtain ⟨e, mem, same⟩ := List.mem_map.mp mem
    exact fresh e mem same
  intro r small open_
  by_cases here : r = s.count
  · subst here
    simp only [rrs_setRR]
    exact mem_append_right _ mem_cons_self
  simp only [rrs_setRR_of_ne _ here] at open_ ⊢
  refine mem_append_left _ (tabled.bound r ?_ open_)
  have small : r < s.count + 1 := small
  omega

theorem fresh_of_find (found : s.handles.find? (·.1 = key) = none) :
    ∀ e ∈ s.handles, e.1 ≠ key := by
  intro e mem
  simpa using List.find?_eq_none.mp found e mem

theorem queryServer (tabled : Tabled s) (key : Key) (waiting : Waiting) :
    Tabled (s.queryServer key waiting) := by
  rw [State.queryServer]
  cases found : s.handles.find? (·.1 = key) with
  | some => exact tabled.add waiting
  | none => exact (tabled.create (fresh_of_find found)).add waiting

theorem removeKey (tabled : Tabled s) (mem : entry ∈ s.handles) (w : WorkerId) :
    Tabled (s.removeKey entry w).1 := by
  have removed := s.removed entry w
  have logged := tabled.keep (.log s ((shifted (s.rrs entry.2).handles).1.map .closed))
  generalize s.removeKey entry w = result at removed ⊢
  cases removed with
  | absent => exact tabled
  | left => exact tabled.setRR rfl id
  | closed =>
    have shut : Tabled ((s.log ((shifted (s.rrs entry.2).handles).1.map .closed)).setRR entry.2
        { s.rrs entry.2 with
          all := (s.rrs entry.2).all.filter (· ≠ w)
          free := (s.rrs entry.2).free.erase w
          handles := (shifted (s.rrs entry.2).handles).2
          socket := .closed }) := by
      refine logged.setRR rfl ?_
      rintro (impossible | impossible)
      · cases impossible
      · cases impossible
    refine shut.unlist (tabled.owner mem) ?_
    exact ⟨by simp, by simp⟩
  | threw => exact logged.setRR rfl id

theorem close (tabled : Tabled s) (key : Key) (w : WorkerId) : Tabled (s.close key w) := by
  rw [State.close]
  cases found : s.handles.find? (·.1 = key) with
  | none => exact tabled
  | some => exact tabled.removeKey (mem_of_find?_eq_some found) w

theorem removeHandles (tabled : Tabled s) (w : WorkerId) (keys : List Key) :
    Tabled (s.removeHandles w keys) := by
  have invariant := removeHandles_invariant (w := w) (P := fun _ => Tabled) id
    (fun tabled mem _ => tabled.removeKey mem w) keys tabled
  exact invariant.choose_spec

section

variable (tabled : Tabled s)
include tabled

theorem receive (w : WorkerId) (message : ToMaster) : Tabled (s.receive w message) := by
  cases message with
  | queryServer seq key => exact tabled.queryServer key _
  | close key => exact tabled.close key w
  | ack seq =>
    rw [State.receive]
    split
    · have rest : Tabled { s with callbacks := s.callbacks.filter (·.1 ≠ seq) } :=
        tabled.of_eq rfl rfl rfl
      exact rest.keep (.answered _ _ _)
    · exact tabled

theorem receiveInWorker (w : WorkerId) (message : ToWorker) :
    Tabled (s.receiveInWorker w message) := by
  obtain ⟨rrs, handles, count, -⟩ := s.receiveInWorker_frame w message
  exact tabled.of_eq rrs handles count

/-- Every step keeps the table, with no condition on the action. -/
theorem step {action : Action} (stepped : s.step action = some s') : Tabled s' := by
  cases transition_of_step stepped with
  | fork | listen | close | exit | tellDisconnect =>
    exact tabled.of_eq rfl rfl rfl
  | onconnection r =>
    have arrives : Tabled (s.arrive (s.accept r)) := tabled.of_eq rfl rfl rfl
    exact arrives.keep (.distribute _ _ _)
  | onconnectionError => exact tabled.keep (.distribute _ _ _)
  | listening r ready =>
    refine Tabled.keep ?_ (.done _ _ _)
    exact tabled.setRR rfl fun _ => .inl ready.2
  | error r errno ready =>
    have listed := tabled.bound r ready.1 (.inl ready.2)
    refine Tabled.failures errno _ (tabled.setRR rfl fun _ => .inl ready.2) ?_ ?_
    · rw [rrs_setRR]
      exact tabled.owner listed
    · rw [rrs_setRR]
  | toMaster i w message =>
    have rest : Tabled { s with toMaster := s.toMaster.eraseIdx i } := tabled.of_eq rfl rfl rfl
    exact rest.receive w message
  | toWorker i w message =>
    have rest : Tabled { s with toWorker := s.toWorker.eraseIdx i } := tabled.of_eq rfl rfl rfl
    exact rest.receiveInWorker w message
  | disconnect w => exact tabled.receiveInWorker w (.disconnect 0)
  | disconnected w shut =>
    have gone : Tabled (s.setWorker w { s.workers w with channel := .gone }) :=
      tabled.of_eq rfl rfl rfl
    exact gone.removeHandles w _

end

end Tabled

/-- **Messages and their callbacks**, in every run: a hand-off that is under way, and an answer,
belong to one outstanding callback, for the same connection, and none is under way twice; so each
answer finds its callback, and what a worker has accepted is reported in the end. -/
theorem answers_find_callbacks {s : State} (reached : s.Reached) :
    (s.callbacks.map (·.1)).Nodup ∧
      (∀ m ∈ s.newconns, ∃ e ∈ s.callbacks, e.1 = m.1 ∧ e.2.handle = m.2) ∧
      (∀ m ∈ s.acks, ∃ e ∈ s.callbacks, e.1 = m.1) ∧
      (s.newconns.map (·.1) ++ s.acks.map (·.1)).Nodup ∧
      ∀ h, s.acceptances h ≠ 0 →
        s.reports h ≠ 0 ∨ ∃ e ∈ s.callbacks, e.2.handle = h ∧ (e.1, true) ∈ s.acks := by
  obtain ⟨-, posted⟩ := Inv.of_reached reached
  exact ⟨posted.seqs, posted.newconn, posted.ack, posted.distinct, posted.told⟩

/-- An answer under way -/
theorem answers_find_callbacks_accepted : ∃ s : State, s.acks = [(1, true)] ∧
    (∀ m ∈ s.acks, ∃ e ∈ s.callbacks, e.1 = m.1) ∧ (s.callbacks.map (·.1)).Nodup := by
  obtain ⟨s, reached, ack⟩ := Library.Run.exists_of_exec State.step (fun _ _ => True) State.initial
    (fun s => s.acks = [(1, true)])
    [.fork, .listen 1 "8080", .toMaster 0, .listening 0, .toWorker 0, .onconnection 0, .toWorker 0]
    (by decide)
  obtain ⟨seqs, -, found, -⟩ := answers_find_callbacks reached
  exact ⟨s, ack, found, seqs⟩

/-- **No key is bound twice**: in every run there is at most one socket for a key that is bound, or
being bound. -/
theorem one_socket_of_key {s : State} (reached : s.Reached) {r r' : Nat} (less : r < s.count)
    (less' : r' < s.count) (bound : (s.rrs r).socket = .binding ∨ (s.rrs r).socket = .listening)
    (bound' : (s.rrs r').socket = .binding ∨ (s.rrs r').socket = .listening)
    (same : (s.rrs r).key = (s.rrs r').key) : r = r' := by
  have tabled := reached.invariant Tabled .initial fun tabled _ stepped => tabled.step stepped
  have mem := tabled.bound r less bound
  have mem' := tabled.bound r' less' bound'
  rw [same] at mem
  exact congrArg Prod.snd (inj_on_of_nodup_map tabled.keys mem mem' rfl)

/-- Two keys -/
theorem one_socket_of_key_two : ∃ s : State, s.count = 2 ∧
    ∀ r < s.count, (s.rrs r).socket = .listening → (s.rrs r).key = "8080" → r = 0 := by
  obtain ⟨s, reached, count, listening, key⟩ := Library.Run.exists_of_exec State.step
    (fun _ _ => True) State.initial
    (fun s => s.count = 2 ∧ (s.rrs 0).socket = .listening ∧ (s.rrs 0).key = "8080")
    [.fork, .fork, .listen 1 "8080", .listen 2 "9090", .toMaster 0, .toMaster 0, .listening 0]
    (by decide)
  exact ⟨s, count, fun r less bound named =>
    one_socket_of_key reached less (by omega) (.inr bound) (.inr listening) (named.trans key.symm)⟩

end IoJs.Cluster
