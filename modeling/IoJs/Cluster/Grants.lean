import IoJs.Cluster.Table

/-!
# Who has a server

A worker that has a server of a key has been granted it by the master: first the reply is on its way
to the worker, then the key is in `handles` of the worker, and then its 'close' is on its way to the
master. Until the master gets it, the worker is in `all` of the `RoundRobinHandle` of the key, and
that is in the table (`Granted`).
-/

namespace IoJs.Cluster

open List Option

/-- The reply that a server is there -/
def ToWorker.grants (key : Key) : ToWorker → Bool
  | .reply _ errno key' => errno = 0 && key' = key
  | _ => false

namespace State

/-- The end of a channel comes after all that has been sent on it. -/
def drained (s : State) : Action → Bool
  | .disconnected w => w ∉ s.toMaster.map (·.1)
  | _ => true

/-- The last worker of a `RoundRobinHandle` goes only if the socket listens. -/
def lastListening (s : State) (r : Nat) (w : WorkerId) : Bool :=
  w ∉ (s.rrs r).all || (s.rrs r).all.filter (· ≠ w) ≠ [] || (s.rrs r).socket = .listening

/-- The actions that find what they need -/
def findsHandle (s : State) : Action → Bool
  | .toMaster i => s.toMaster[i]?.all fun message =>
    match message.2 with
    | .close key => (s.handles.find? (·.1 = key)).all fun e => s.lastListening e.2 message.1
    | _ => true
  | .disconnected w => s.handles.all fun e => s.lastListening e.2 w
  | .error r errno => errno = 0 || (s.rrs r).waiting.length ≤ 1
  | _ => true

/-- The replies under way that grant a key -/
def replies (s : State) (w : WorkerId) (key : Key) : Nat :=
  s.toWorker.countP fun m => m.1 = w && m.2.grants key

/-- A server of a key that a worker has, is about to have, or has closed -/
def held (s : State) (w : WorkerId) (key : Key) : Nat :=
  (s.workers w).handles.count key + s.replies w key + s.toMaster.count (w, .close key)

/-- The master has seen that a worker has gone. -/
def gone (s : State) (w : WorkerId) : Prop := (s.workers w).channel = .gone

end State

theorem State.reply_of_listed {s : State} {r : Nat} (listed : ((s.rrs r).key, r) ∈ s.handles)
    (waiting : Waiting) :
    s.reply (s.rrs r).key waiting 0 =
      some (s.send waiting.worker fun _ => .reply waiting.seq 0 (s.rrs r).key) := by
  have there : s.handles.any (·.1 = (s.rrs r).key) = true :=
    List.any_eq_true.mpr ⟨_, listed, by simp⟩
  simp [State.reply, there]

/-- What a worker has, the master knows of. -/
structure Granted (s : State) : Prop where
  once : ∀ w key, ¬s.gone w → s.held w key ≤ 1
  server : ∀ w key, ¬s.gone w → s.held w key ≠ 0 →
    ∃ r, (key, r) ∈ s.handles ∧ w ∈ (s.rrs r).all ∧ (s.rrs r).socket ≠ .binding
  queue : ∀ r, (s.rrs r).socket = .binding → ((s.rrs r).waiting.map (·.worker)).Nodup ∧
    ∀ w ∈ (s.rrs r).waiting, w.worker ∈ (s.rrs r).all ∨ s.gone w.worker
  silent : ∀ m ∈ s.toMaster, ¬s.gone m.1
  fresh : ∀ w, s.ids < w → (s.workers w).channel = .unborn

/-- Those who may be told that the server is there -/
structure Grantable (s : State) (r : Nat) (waiting : List Waiting) : Prop where
  listed : ((s.rrs r).key, r) ∈ s.handles
  socket : (s.rrs r).socket ≠ .binding
  nodup : (waiting.map (·.worker)).Nodup
  member : ∀ w ∈ waiting, w.worker ∈ (s.rrs r).all ∨ s.gone w.worker
  nothing : ∀ w ∈ waiting, s.gone w.worker ∨ s.held w.worker (s.rrs r).key = 0

namespace Granted

open State

variable {s s' : State} {r : Nat} {w : WorkerId} {message : Nat → ToWorker}

theorem initial : Granted State.initial where
  once _ _ _ := Nat.zero_le 1
  server _ _ _ some_ := absurd rfl some_
  queue _ _ := ⟨nodup_nil, nofun⟩
  silent _ mem := absurd mem not_mem_nil
  fresh _ _ := rfl

theorem keep (granted : Granted s) (same : SameTable s s') (ids : s'.ids = s.ids)
    (replies : ∀ w key, s'.replies w key = s.replies w key) : Granted s' := by
  have held (w : WorkerId) (key : Key) : s'.held w key = s.held w key := by
    rw [State.held, same.workers, replies, same.toMaster, State.held]
  have gone (w : WorkerId) : s'.gone w = s.gone w := by rw [State.gone, same.workers, State.gone]
  refine ⟨?_, ?_, ?_, ?_, ?_⟩
  · intro w key
    rw [gone, held]
    exact granted.once w key
  · intro w key
    rw [gone, held, same.handles]
    simp only [same.all, same.socket]
    exact granted.server w key
  · intro r
    rw [same.socket, same.waiting, same.all]
    simpa [gone] using granted.queue r
  · rw [same.toMaster]
    simp only [gone]
    exact granted.silent
  rw [ids, same.workers]
  exact granted.fresh

/-! ## Messages that grant nothing -/

theorem replies_send (s : State) (w : WorkerId)
    (other : ∀ seq key, (message seq).grants key = false) (w' : WorkerId) (key : Key) :
    (s.send w message).replies w' key = s.replies w' key := by
  simp [State.replies, State.send, other]

theorem replies_handoff (s : State) (r : Nat) (w w' : WorkerId) (key : Key) :
    (s.handoff r w).replies w' key = s.replies w' key := by
  obtain ⟨h, rest, -, eq⟩ | ⟨rest, free, -, eq⟩ | eq := s.handoff_cases r w
  · rw [eq, State.sendWith]
    exact replies_send _ _ (fun _ _ => rfl) _ _
  · rw [eq]
    rfl
  · rw [eq]

theorem ids_handoff (s : State) (r : Nat) (w : WorkerId) : (s.handoff r w).ids = s.ids := by
  obtain ⟨h, rest, -, eq⟩ | ⟨rest, free, -, eq⟩ | eq := s.handoff_cases r w
  · rw [eq]
    rfl
  · rw [eq]
    rfl
  · rw [eq]

section

variable (granted : Granted s)
include granted

theorem handoff (r : Nat) (w : WorkerId) : Granted (s.handoff r w) :=
  granted.keep (.handoff s r w) (ids_handoff s r w) (replies_handoff s r w)

theorem distribute (r : Nat) (handle : Option Handle) : Granted (s.distribute r handle) := by
  rw [State.distribute]
  split
  · exact granted.keep (.requeue s r _ _) rfl fun _ _ => rfl
  refine Granted.handoff ?_ r _
  exact granted.keep (.requeue s r _ _) rfl fun _ _ => rfl

theorem log (events : List Event) : Granted (s.log events) :=
  granted.keep (.log s events) rfl fun _ _ => rfl

theorem answered (h : Handoff) (accepted : Bool) : Granted (s.answered h accepted) := by
  cases accepted with
  | true => exact ((granted.log _).log _).handoff _ _
  | false => exact ((granted.log _).distribute _ _).handoff _ _

theorem send (w : WorkerId)
    (other : ∀ seq key, (message seq).grants key = false) : Granted (s.send w message) :=
  granted.keep (.send s w message) rfl (replies_send s w other)

end

/-! ## Replies -/

theorem held_grant (s : State) (w : WorkerId) (seq : Nat) (key : Key) (w' : WorkerId) (key' : Key) :
    (s.send w fun _ => .reply seq 0 key).held w' key' =
      s.held w' key' + if w = w' ∧ key = key' then 1 else 0 := by
  have more : (s.send w fun _ => .reply seq 0 key).replies w' key' =
      s.replies w' key' + if w = w' ∧ key = key' then 1 else 0 := by
    simp only [State.replies, State.send, countP_append, countP_cons, countP_nil,
      ToWorker.grants, decide_true, Bool.true_and, Bool.and_eq_true, decide_eq_true_eq,
      Nat.zero_add]
  have same : (s.send w fun _ => .reply seq 0 key).workers = s.workers := rfl
  have same' : (s.send w fun _ => .reply seq 0 key).toMaster = s.toMaster := rfl
  rw [State.held, more, same, same', State.held]
  omega

theorem grant (granted : Granted s) {first : Waiting} {waiting : List Waiting}
    (grantable : Grantable s r (first :: waiting)) :
    Granted (s.send first.worker fun _ => .reply first.seq 0 (s.rrs r).key) := by
  refine ⟨?_, ?_, granted.queue, granted.silent, granted.fresh⟩
  · intro w key live
    have most := granted.once w key live
    rw [held_grant]
    split_ifs with same
    · obtain ⟨rfl, rfl⟩ := same
      obtain gone | nothing := grantable.nothing first mem_cons_self
      · exact absurd gone live
      · omega
    · exact most
  intro w key live some_
  by_cases same : first.worker = w ∧ (s.rrs r).key = key
  · obtain ⟨rfl, rfl⟩ := same
    obtain member | gone := grantable.member first mem_cons_self
    · exact ⟨r, grantable.listed, member, grantable.socket⟩
    · exact absurd gone live
  rw [held_grant, if_neg same] at some_
  exact granted.server w key live some_

end Granted

namespace Grantable

open State

variable {s s' : State} {r : Nat} {first : Waiting} {waiting : List Waiting}

theorem next (grantable : Grantable s r (first :: waiting)) :
    Grantable (s.send first.worker fun _ => .reply first.seq 0 (s.rrs r).key) r waiting := by
  have nodup := grantable.nodup
  rw [map_cons, nodup_cons] at nodup
  refine ⟨grantable.listed, grantable.socket, nodup.2, ?_, ?_⟩
  · exact fun w mem => grantable.member w (mem_cons_of_mem first mem)
  intro w mem
  have other : ¬(first.worker = w.worker ∧ (s.rrs r).key = (s.rrs r).key) := by
    intro same
    exact nodup.1 (same.1 ▸ List.mem_map_of_mem mem)
  have same : ((s.send first.worker fun _ => .reply first.seq 0 (s.rrs r).key).rrs r).key =
      (s.rrs r).key := rfl
  rw [same, Granted.held_grant, if_neg other]
  exact grantable.nothing w (mem_cons_of_mem first mem)

theorem keep (grantable : Grantable s r waiting) (same : SameTable s s')
    (replies : ∀ w key, s'.replies w key = s.replies w key) : Grantable s' r waiting := by
  refine ⟨?_, ?_, grantable.nodup, ?_, ?_⟩
  · rw [same.key, same.handles]
    exact grantable.listed
  · rw [same.socket]
    exact grantable.socket
  · rw [same.all]
    simp only [gone, same.workers]
    exact grantable.member
  rw [same.key]
  simp only [gone, held, same.workers, same.toMaster, replies]
  exact grantable.nothing

end Grantable

namespace Granted

open State

variable {s s' : State} {r : Nat} {w : WorkerId}
variable {waiting : Waiting} {key : Key} {errno : Int} {entry : Key × Nat} {w' : WorkerId}
  {i n : Nat} {message : ToMaster}

theorem done (waiting : List Waiting) : ∀ {s : State}, Granted s → Grantable s r waiting →
    Granted (s.done r waiting) := by
  induction waiting with
  | nil =>
    intro s granted _
    exact granted
  | cons first waiting ih =>
    intro s granted grantable
    rw [State.done, reply_of_listed grantable.listed]
    exact ih ((granted.grant grantable).handoff r _)
      (grantable.next.keep (.handoff _ r _) (replies_handoff _ r _))

theorem failures_zero (waiting : List Waiting) : ∀ {s : State}, Granted s → Grantable s r waiting →
    Granted (s.failures r 0 waiting) := by
  induction waiting with
  | nil =>
    intro s granted _
    exact granted
  | cons first waiting ih =>
    intro s granted grantable
    rw [State.failures, reply_of_listed grantable.listed]
    exact ih (granted.grant grantable) grantable.next

/-! ## Requests -/

section

variable (granted : Granted s)
include granted

theorem setRR {rr : RoundRobinHandle} (all : (s.rrs r).all ⊆ rr.all)
    (socket : (s.rrs r).socket ≠ .binding → rr.socket ≠ .binding)
    (queue : rr.socket = .binding → (rr.waiting.map (·.worker)).Nodup ∧
      ∀ w ∈ rr.waiting, w.worker ∈ rr.all ∨ s.gone w.worker) : Granted (s.setRR r rr) := by
  refine ⟨granted.once, ?_, ?_, granted.silent, granted.fresh⟩
  · intro w key live some_
    obtain ⟨r', listed, member, started⟩ := granted.server w key live some_
    refine ⟨r', listed, ?_⟩
    by_cases here : r' = r
    · subst here
      rw [rrs_setRR]
      exact ⟨all member, socket started⟩
    rw [rrs_setRR_of_ne _ here]
    exact ⟨member, started⟩
  intro r'
  by_cases here : r' = r
  · subst here
    rw [rrs_setRR]
    exact queue
  rw [rrs_setRR_of_ne _ here]
  exact granted.queue r'

theorem held_of_absent (tabled : Tabled s)
    (listed : ((s.rrs r).key, r) ∈ s.handles) (live : ¬s.gone w) (absent : w ∉ (s.rrs r).all) :
    s.held w (s.rrs r).key = 0 := by
  by_contra some_
  obtain ⟨r', listed', member, -⟩ := granted.server w _ live some_
  have same : r' = r := tabled.owner listed _ listed' rfl
  subst same
  exact absent member

theorem held_of_binding (tabled : Tabled s)
    (listed : ((s.rrs r).key, r) ∈ s.handles) (live : ¬s.gone w)
    (binding : (s.rrs r).socket = .binding) : s.held w (s.rrs r).key = 0 := by
  by_contra some_
  obtain ⟨r', listed', -, started⟩ := granted.server w _ live some_
  have same : r' = r := tabled.owner listed _ listed' rfl
  subst same
  exact started binding

theorem add (tabled : Tabled s) (listed : ((s.rrs r).key, r) ∈ s.handles)
    (live : ¬s.gone waiting.worker) : Granted (s.add r waiting) := by
  rw [State.add]
  split_ifs with absent
  · exact granted
  have nothing := granted.held_of_absent tabled listed live absent
  have more : (s.rrs r).all ⊆ (s.rrs r).all ++ [waiting.worker] := subset_append_left _ _
  dsimp only
  split
  · rename_i listening
    refine Granted.done [waiting] (granted.setRR more (by simp [listening]) ?_) ?_
    · grind
    refine ⟨?_, ?_, nodup_singleton _, ?_, ?_⟩
    · rw [rrs_setRR]
      exact listed
    · simp [rrs_setRR, listening]
    · simp
    intro w mem
    rw [mem_singleton] at mem
    subst mem
    rw [rrs_setRR]
    exact .inr nothing
  · rename_i closed
    refine granted.setRR more id ?_
    intro binding
    simp [closed] at binding
  refine granted.setRR more id ?_
  intro binding
  obtain ⟨nodup, members⟩ := granted.queue r binding
  constructor
  · rw [map_append, nodup_append']
    refine ⟨nodup, nodup_singleton _, ?_⟩
    simp only [map_cons, map_nil, disjoint_singleton]
    intro mem
    obtain ⟨w, mem, same⟩ := List.mem_map.mp mem
    obtain member | gone := members w mem
    · exact absent (same ▸ member)
    · exact live (same ▸ gone)
  intro w mem
  obtain mem | mem := mem_append.mp mem
  · exact (members w mem).imp_left fun member => more member
  rw [mem_singleton] at mem
  subst mem
  exact .inl (mem_append_right _ mem_cons_self)

theorem create (custody : Custody [] s) (key : Key) : Granted { s.setRR s.count (.new key) with
    count := s.count + 1
    handles := s.handles ++ [(key, s.count)] } := by
  refine ⟨granted.once, ?_, ?_, granted.silent, granted.fresh⟩
  · intro w key' live some_
    obtain ⟨r', listed, member, started⟩ := granted.server w key' live some_
    have other : r' ≠ s.count := Nat.ne_of_lt (custody.table _ listed).2.2
    refine ⟨r', mem_append_left _ listed, ?_⟩
    simpa [rrs_setRR_of_ne _ other] using ⟨member, started⟩
  intro r'
  by_cases here : r' = s.count
  · subst here
    simp only [rrs_setRR]
    exact fun _ => ⟨nodup_nil, nofun⟩
  simp only [rrs_setRR_of_ne _ here]
  exact granted.queue r'

theorem queryServer (tabled : Tabled s) (custody : Custody [] s) (key : Key)
    (live : ¬s.gone waiting.worker) :
    Granted (s.queryServer key waiting) := by
  rw [State.queryServer]
  cases found : s.handles.find? (·.1 = key) with
  | some entry =>
    have mem := mem_of_find?_eq_some found
    have listed : ((s.rrs entry.2).key, entry.2) ∈ s.handles := by
      rw [(custody.table entry mem).2.1]
      exact mem
    exact granted.add tabled listed live
  | none =>
    refine (granted.create custody key).add (tabled.create (Tabled.fresh_of_find found)) ?_ live
    simp [RoundRobinHandle.new]

theorem settle (tabled : Tabled s) (small : r < s.count)
    (binding : (s.rrs r).socket = .binding) (socket : Socket) (started : socket ≠ .binding) :
    Granted (s.setRR r { s.rrs r with socket, waiting := [] }) ∧
      Grantable (s.setRR r { s.rrs r with socket, waiting := [] }) r (s.rrs r).waiting := by
  have listed := tabled.bound r small (.inl binding)
  obtain ⟨nodup, members⟩ := granted.queue r binding
  refine ⟨granted.setRR (List.Subset.refl _) (fun _ => started) (fun same => absurd same started),
    ?_, ?_, nodup, ?_, ?_⟩
  · rw [rrs_setRR]
    exact listed
  · rw [rrs_setRR]
    exact started
  · rw [rrs_setRR]
    exact members
  intro w _
  rw [rrs_setRR]
  by_cases live : s.gone w.worker
  · exact .inl live
  · exact .inr (granted.held_of_binding tabled listed live binding)

theorem unlist (nobody : ∀ w, ¬s.gone w → s.held w key = 0) :
    Granted { s with handles := s.handles.filter (·.1 ≠ key) } := by
  refine ⟨granted.once, ?_, granted.queue, granted.silent, granted.fresh⟩
  intro w key' live some_
  obtain ⟨r', listed, rest⟩ := granted.server w key' live some_
  refine ⟨r', ?_, rest⟩
  rw [mem_filter, decide_eq_true_eq]
  refine ⟨listed, fun same => some_ ?_⟩
  exact same ▸ nobody w live

theorem failure (tabled : Tabled s) (small : r < s.count)
    (binding : (s.rrs r).socket = .binding) (wrong : errno ≠ 0)
    (few : (s.rrs r).waiting.length ≤ 1) :
    Granted ((s.setRR r { s.rrs r with socket := .failed, waiting := [] }).failures r errno
      (s.rrs r).waiting) := by
  have settled : Granted (s.setRR r { s.rrs r with socket := .failed, waiting := [] }) :=
    (granted.settle tabled small binding .failed (by simp)).1
  have listed := tabled.bound r small (.inl binding)
  rcases waiting : (s.rrs r).waiting with _ | ⟨first, _ | ⟨second, rest⟩⟩
  · exact settled
  · have there : s.handles.any (·.1 = (s.rrs r).key) = true :=
      List.any_eq_true.mpr ⟨_, listed, by simp⟩
    have there' : (s.setRR r { s.rrs r with socket := .failed, waiting := [] }).handles.any
        (·.1 = (s.rrs r).key) = true := there
    simp only [State.failures, State.reply, rrs_setRR, if_pos there', if_pos wrong]
    refine Granted.send (settled.unlist ?_) first.worker ?_
    · exact fun w live => granted.held_of_binding tabled listed live binding
    · simp [ToWorker.grants, wrong]
  rw [waiting] at few
  simp at few

end

/-! ## Removal -/

/-- A worker leaves a `RoundRobinHandle`: it has gone, or it has no server of the key any more. -/
def Leaves (s : State) (entry : Key × Nat) (w : WorkerId) : Prop :=
  s.gone w ∨ s.held w entry.1 = 0 ∧ (s.rrs entry.2).socket ≠ .binding

theorem server_of_leaves (granted : Granted s) (custody : Custody [] s)
    (mem : entry ∈ s.handles) (leaves : Leaves s entry w)
    (live : ¬s.gone w') (some_ : s.held w' key ≠ 0) :
    ∃ r, (key, r) ∈ s.handles ∧ w' ∈ (s.rrs r).all ∧ (s.rrs r).socket ≠ .binding ∧
      (r = entry.2 → w' ≠ w) := by
  obtain ⟨r, listed, member, started⟩ := granted.server w' key live some_
  refine ⟨r, listed, member, started, ?_⟩
  rintro rfl rfl
  obtain gone | ⟨nothing, -⟩ := leaves
  · exact live gone
  have same : key = entry.1 := (custody.table _ listed).2.1.symm.trans (custody.table entry mem).2.1
  exact some_ (same ▸ nothing)

theorem removeKey (granted : Granted s) (tabled : Tabled s) (custody : Custody [] s)
    (mem : entry ∈ s.handles) (leaves : Leaves s entry w)
    (last : s.lastListening entry.2 w = true) : Granted (s.removeKey entry w).1 := by
  have removed := s.removed entry w
  generalize s.removeKey entry w = result at removed ⊢
  cases removed with
  | absent => exact granted
  | left =>
    refine ⟨granted.once, ?_, ?_, granted.silent, granted.fresh⟩
    · intro w' key live some_
      obtain ⟨r, listed, member, started, other⟩ :=
        granted.server_of_leaves custody mem leaves live some_
      refine ⟨r, listed, ?_⟩
      by_cases here : r = entry.2
      · subst here
        rw [rrs_setRR]
        refine ⟨?_, started⟩
        simpa using ⟨member, other rfl⟩
      rw [rrs_setRR_of_ne _ here]
      exact ⟨member, started⟩
    intro r
    by_cases here : r = entry.2
    · subst here
      rw [rrs_setRR]
      intro binding
      obtain ⟨nodup, members⟩ := granted.queue entry.2 binding
      refine ⟨nodup, ?_⟩
      intro waiting mem
      obtain gone | ⟨-, started⟩ := leaves
      · by_cases same : waiting.worker = w
        · exact .inr (same ▸ gone)
        refine (members waiting mem).imp_left fun member => ?_
        simpa using ⟨member, same⟩
      · exact absurd binding started
    rw [rrs_setRR_of_ne _ here]
    exact granted.queue r
  | closed listed alone =>
    refine ⟨granted.once, ?_, ?_, granted.silent, granted.fresh⟩
    · intro w' key live some_
      obtain ⟨r, listed, member, started, other⟩ :=
        granted.server_of_leaves custody mem leaves live some_
      have elsewhere : r ≠ entry.2 := by
        rintro rfl
        have left : w' ∈ (s.rrs entry.2).all.filter (· ≠ w) := by
          rw [mem_filter, decide_eq_true_eq]
          exact ⟨member, other rfl⟩
        rw [alone] at left
        exact not_mem_nil left
      refine ⟨r, ?_, ?_⟩
      · rw [mem_filter, decide_eq_true_eq]
        exact ⟨listed, fun same => elsewhere (tabled.owner mem _ listed same)⟩
      · simpa [rrs_setRR_of_ne _ elsewhere] using ⟨member, started⟩
    intro r
    by_cases here : r = entry.2
    · grind [rrs_setRR]
    simp only [rrs_setRR_of_ne _ here]
    exact granted.queue r
  | threw listed alone early =>
    have listening : (s.rrs entry.2).socket = .listening := by grind [State.lastListening]
    exact absurd listening early

theorem lastListening_removeKey (custody : Custody [] s)
    (mem : entry ∈ s.handles) {keys : List Key} (fresh : entry.1 ∉ keys)
    (last : ∀ e ∈ s.handles, e.1 ∈ keys → s.lastListening e.2 w = true) :
    ∀ e ∈ (s.removeKey entry w).1.handles, e.1 ∈ keys →
      (s.removeKey entry w).1.lastListening e.2 w = true := by
  intro e mem' later
  have before := (removeKey_frame s entry w).2.1 mem'
  have other : e.2 ≠ entry.2 := by
    intro eq
    have key' := (custody.table e before).2.1
    rw [eq, (custody.table entry mem).2.1] at key'
    exact fresh (key' ▸ later)
  rw [State.lastListening, (removeKey_frame s entry w).1 e.2 other]
  exact last e before later

theorem removeHandles (keys : List Key) (nodup : keys.Nodup) (granted : Granted s)
    (tabled : Tabled s) (custody : Custody [] s) (gone : s.gone w)
    (last : ∀ e ∈ s.handles, e.1 ∈ keys → s.lastListening e.2 w = true) :
    Granted (s.removeHandles w keys) := by
  have invariant := removeHandles_invariant (w := w) (P := fun keys s => keys.Nodup ∧ Granted s ∧
    Tabled s ∧ Custody [] s ∧ s.gone w ∧
      ∀ e ∈ s.handles, e.1 ∈ keys → s.lastListening e.2 w = true) ?_ ?_ keys
    ⟨nodup, granted, tabled, custody, gone, last⟩
  · exact invariant.choose_spec.2.1
  · intro key keys s ⟨nodup, granted, tabled, custody, gone, last⟩
    exact ⟨(nodup_cons.mp nodup).2, granted, tabled, custody, gone, fun e mem later =>
      last e mem (mem_cons_of_mem key later)⟩
  intro key keys s entry ⟨nodup, granted, tabled, custody, gone, last⟩ mem same
  rw [nodup_cons] at nodup
  refine ⟨nodup.2, granted.removeKey tabled custody mem (.inl gone)
    (last entry mem (same ▸ mem_cons_self)), tabled.removeKey mem w,
    custody.removeKey mem w, ?_, ?_⟩
  · rw [State.gone, (removeKey_frame s entry w).2.2]
    exact gone
  exact lastListening_removeKey custody mem (same ▸ nodup.1) fun e before later =>
    last e before (mem_cons_of_mem key later)

/-! ## The workers -/

section

variable (granted : Granted s)
include granted

theorem of_le (rrs : s'.rrs = s.rrs) (handles : s'.handles = s.handles)
    (gone : ∀ w, s'.gone w ↔ s.gone w) (held : ∀ w key, s'.held w key ≤ s.held w key)
    (silent : ∀ m ∈ s'.toMaster, ¬s.gone m.1)
    (fresh : ∀ w, s'.ids < w → (s'.workers w).channel = .unborn) : Granted s' := by
  refine ⟨?_, ?_, ?_, ?_, fresh⟩
  · intro w key live
    exact Nat.le_trans (held w key) (granted.once w key (mt (gone w).mpr live))
  · intro w key live some_
    rw [rrs, handles]
    have less := held w key
    exact granted.server w key (mt (gone w).mpr live) (by omega)
  · rw [rrs]
    simp only [gone]
    exact granted.queue
  simp only [gone]
  exact silent

theorem received (i : Nat) : Granted { s with toMaster := s.toMaster.eraseIdx i } := by
  refine granted.of_le rfl rfl (fun _ => Iff.rfl) ?_ ?_ granted.fresh
  · intro w key
    exact Nat.add_le_add_left ((eraseIdx_sublist _ i).count_le _) _
  intro m mem
  exact granted.silent m ((eraseIdx_sublist _ i).subset mem)

theorem leaves_of_close (arrived : s.toMaster[i]? = some (w, .close key)) :
    ∃ r, (key, r) ∈ s.handles ∧ Leaves { s with toMaster := s.toMaster.eraseIdx i } (key, r) w := by
  have mem := mem_of_getElem? arrived
  have live := granted.silent _ mem
  have perm := (perm_eraseIdx arrived).count_eq (w, .close key)
  rw [count_cons_self] at perm
  have most := granted.once w key live
  rw [held, perm] at most
  have some_ : s.held w key ≠ 0 := by
    rw [held, perm]
    omega
  obtain ⟨r, listed, -, started⟩ := granted.server w key live some_
  refine ⟨r, listed, .inr ⟨?_, started⟩⟩
  have less : (s.workers w).handles.count key + s.replies w key +
      (s.toMaster.eraseIdx i).count (w, .close key) = 0 := by omega
  exact less

theorem receive (tabled : Tabled s) (custody : Custody [] s)
    (arrived : s.toMaster[i]? = some (w, message)) (finds : s.findsHandle (.toMaster i) = true) :
    Granted ({ s with toMaster := s.toMaster.eraseIdx i }.receive w message) := by
  have rest := granted.received i
  have live := granted.silent _ (mem_of_getElem? arrived)
  have tabled' : Tabled { s with toMaster := s.toMaster.eraseIdx i } := tabled.of_eq rfl rfl rfl
  have custody' : Custody [] { s with toMaster := s.toMaster.eraseIdx i } :=
    custody.of_eq rfl rfl (List.Subset.refl _) rfl rfl rfl
  cases message with
  | queryServer seq key => exact rest.queryServer tabled' custody' key live
  | close key =>
    obtain ⟨r, listed, leaves⟩ := granted.leaves_of_close arrived
    rw [findsHandle, arrived] at finds
    rw [State.receive, State.close]
    cases found : s.handles.find? (·.1 = key) with
    | none => exact absurd rfl (Tabled.fresh_of_find found _ listed)
    | some entry =>
      have mem := mem_of_find?_eq_some found
      have same : entry.1 = key := by simpa using List.find?_some found
      have here : entry = (key, r) := Prod.ext same (tabled.owner listed _ mem same)
      simp only [all_some, found] at finds
      subst here
      exact rest.removeKey tabled' custody' mem leaves finds
  | ack n accepted =>
    rw [State.receive]
    cases s.callbacks.find? (·.1 = n) with
    | none => exact rest
    | some e =>
      refine Granted.answered ?_ e.2 accepted
      exact rest.keep ⟨rfl, rfl, rfl, rfl, fun _ => rfl, fun _ => rfl, fun _ => rfl,
        fun _ => rfl⟩ rfl fun _ _ => rfl

end

theorem workers_setWorker (s : State) (w : WorkerId) (worker : Worker) :
    (s.setWorker w worker).workers w = worker :=
  Function.update_self _ _ _

theorem workers_setWorker_of_ne (s : State) (other : w' ≠ w) (worker : Worker) :
    (s.setWorker w worker).workers w' = s.workers w' :=
  Function.update_of_ne other _ _

theorem workers_post (s : State) (w : WorkerId) (message : ToMaster) :
    (s.post w message).workers w = { s.workers w with seq := (s.workers w).seq + 1 } :=
  workers_setWorker s w _

theorem of_worker (granted : Granted s) (rrs : s'.rrs = s.rrs) (handles : s'.handles = s.handles)
    (ids : s'.ids = s.ids) (others : ∀ w', w' ≠ w → s'.workers w' = s.workers w')
    (opened : (s.workers w).channel = .open) (live : (s'.workers w).channel ≠ .gone)
    (held : ∀ w' key, s'.held w' key ≤ s.held w' key)
    (toMaster : ∀ m ∈ s'.toMaster, m ∈ s.toMaster ∨ m.1 = w) : Granted s' := by
  have before : ¬s.gone w := by
    rw [gone, opened]
    simp
  refine granted.of_le rrs handles ?_ held ?_ ?_
  · intro w'
    by_cases here : w' = w
    · subst here
      exact ⟨fun gone => absurd gone live, fun gone => absurd gone before⟩
    · rw [gone, others w' here, gone]
  · intro m mem
    obtain old | here := toMaster m mem
    · exact granted.silent m old
    · exact here ▸ before
  intro w' new
  have unborn := granted.fresh w' (ids ▸ new)
  have other : w' ≠ w := by grind
  rw [others w' other]
  exact unborn

theorem setWorker (granted : Granted s) {worker : Worker} (opened : (s.workers w).channel = .open)
    (live : worker.channel ≠ .gone) (handles : worker.handles = (s.workers w).handles) :
    Granted (s.setWorker w worker) := by
  refine granted.of_worker rfl rfl rfl (fun _ other =>
    workers_setWorker_of_ne s other worker) opened
    ?_ ?_ fun _ => .inl
  · rw [workers_setWorker]
    exact live
  intro w' key
  refine Nat.add_le_add_right (Nat.add_le_add_right (Nat.le_of_eq ?_) _) _
  by_cases here : w' = w
  · rw [here, workers_setWorker, handles]
  · rw [workers_setWorker_of_ne s here]

theorem post (granted : Granted s) (opened : (s.workers w).channel = .open)
    (other : ∀ key, message ≠ .close key) : Granted (s.post w message) := by
  have numbered : Granted (s.setWorker w { s.workers w with seq := (s.workers w).seq + 1 }) :=
    granted.setWorker opened (by simp [opened]) rfl
  have opened' : ((s.post w message).workers w).channel = .open :=
    (congrArg Worker.channel (workers_post s w _)).trans opened
  refine numbered.of_worker rfl rfl rfl (fun _ _ => rfl) opened' (by simp [opened']) ?_ ?_
  · intro w' key
    refine Nat.add_le_add_left (Nat.le_of_eq ?_) _
    have different : (w, message) ≠ (w', .close key) := fun same =>
      other key (Prod.ext_iff.mp same).2
    rw [State.post, count_append, count_singleton, if_neg (by simpa using different)]
    rfl
  intro m mem
  refine (mem_append.mp mem).imp id fun here => ?_
  rw [mem_singleton.mp here]

theorem workers_closeServer (s : State) (w : WorkerId) (key : Key) :
    (s.closeServer w key).workers w = { s.workers w with
        handles := (s.workers w).handles.erase key
        seq := (s.workers w).seq + 1 } := by
  rw [State.closeServer, workers_setWorker]
  simp only [workers_post]

theorem held_closeServer (s : State)
    (mem : key ∈ (s.workers w).handles) (w' : WorkerId) (key' : Key) :
    (s.closeServer w key).held w' key' = s.held w' key' := by
  have toMaster : (s.closeServer w key).toMaster = s.toMaster ++ [(w, .close key)] := rfl
  have replies : (s.closeServer w key).replies w' key' = s.replies w' key' := rfl
  rw [held, replies, toMaster, count_append, count_singleton, held]
  by_cases here : w' = w
  · subst here
    rw [workers_closeServer]
    by_cases same : key' = key
    · subst same
      have some_ := count_pos_iff.mpr mem
      rw [count_erase_self, if_pos (by simp)]
      omega
    rw [count_erase_of_ne same, if_neg (by simp [Ne.symm same])]
    omega
  have other : (s.closeServer w key).workers w' = s.workers w' := by
    rw [State.closeServer, workers_setWorker_of_ne _ here]
    exact workers_setWorker_of_ne s here _
  rw [other, if_neg (by simp [Ne.symm here])]
  omega

theorem closeServer (granted : Granted s) (opened : (s.workers w).channel = .open)
    (mem : key ∈ (s.workers w).handles) : Granted (s.closeServer w key) := by
  refine granted.of_worker rfl rfl rfl ?_ opened ?_ ?_ ?_
  · intro w' other
    rw [State.closeServer, workers_setWorker_of_ne _ other]
    exact workers_setWorker_of_ne s other _
  · simp [workers_closeServer, opened]
  · exact fun w' key' => Nat.le_of_eq (held_closeServer s mem w' key')
  intro m mem
  refine (mem_append.mp mem).imp id fun here => ?_
  rw [mem_singleton.mp here]

theorem closeServers (keys : List Key) : ∀ {s : State}, Granted s →
    (s.workers w).channel = .open → (s.workers w).handles = keys →
    Granted (keys.foldl (fun s key => s.closeServer w key) s) ∧
      ((keys.foldl (fun s key => s.closeServer w key) s).workers w).channel = .open := by
  induction keys with
  | nil => grind
  | cons key keys ih =>
    intro s granted opened handles
    have mem : key ∈ (s.workers w).handles := handles ▸ mem_cons_self
    refine ih (granted.closeServer opened mem) ?_ ?_
    · rw [workers_closeServer]
      exact opened
    · simp [workers_closeServer, handles]

theorem disconnect (granted : Granted s) (opened : (s.workers w).channel = .open) :
    Granted (s.disconnect w) := by
  obtain ⟨closed, opened'⟩ := closeServers (s.workers w).handles granted opened rfl
  exact closed.setWorker opened' (by simp) rfl

theorem taken (granted : Granted s) (i : Nat) :
    Granted { s with toWorker := s.toWorker.eraseIdx i } := by
  refine granted.of_le rfl rfl (fun _ => Iff.rfl) ?_ granted.silent granted.fresh
  intro w key
  refine Nat.add_le_add_right (Nat.add_le_add_left ?_ _) _
  exact (eraseIdx_sublist _ i).countP_le

theorem replies_of_arrived
    (arrived : s.toWorker[i]? = some (w, .reply n 0 key)) (w' : WorkerId) (key' : Key) :
    s.replies w' key' = State.replies { s with toWorker := s.toWorker.eraseIdx i } w' key' +
      if w = w' ∧ key = key' then 1 else 0 := by
  rw [State.replies, (perm_eraseIdx arrived).countP_eq, countP_cons]
  simp only [ToWorker.grants, decide_true, Bool.true_and, Bool.and_eq_true, decide_eq_true_eq]
  rfl

section

variable (granted : Granted s)
include granted

theorem listening (opened : (s.workers w).channel = .open)
    (arrived : s.toWorker[i]? = some (w, .reply n errno key)) :
    Granted ({ s with toWorker := s.toWorker.eraseIdx i }.listening w n errno key) := by
  have rest := granted.taken i
  rw [State.listening]
  dsimp only
  split_ifs with waited known
  · exact rest.setWorker opened (by simp [opened]) rfl
  · rw [not_or, not_not] at known
    obtain ⟨rfl, -⟩ := known
    refine granted.of_worker rfl rfl rfl ?_ opened ?_ ?_ fun _ => .inl
    · exact fun w' other => workers_setWorker_of_ne _ other _
    · simp [workers_setWorker, opened]
    intro w' key'
    have before := replies_of_arrived arrived w' key'
    refine Nat.add_le_add_right ?_ _
    by_cases here : w' = w
    · subst here
      rw [workers_setWorker, count_append, count_singleton, before]
      by_cases same : key = key'
      · rw [if_pos (by simpa using same), if_pos ⟨rfl, same⟩]
        exact Nat.le_of_eq (Nat.add_right_comm _ 1 _)
      rw [if_neg (by simpa using same), Nat.add_zero]
      exact Nat.add_le_add_left (Nat.le_add_right _ _) _
    rw [workers_setWorker_of_ne _ here, before]
    exact Nat.add_le_add_left (Nat.le_add_right _ _) _
  · exact rest

theorem onconnection (opened : (s.workers w).channel = .open) (n : Nat)
    (key : Key) (h : Handle) : Granted (s.onconnection w n key h) := by
  have told : ∀ accepted, Granted (s.post w (.ack n accepted)) := by
    intro accepted
    refine granted.post opened ?_
    intro key same
    cases same
  rw [State.onconnection]
  split_ifs
  · exact (told _).log _
  · exact told _

theorem receiveInWorker (opened : (s.workers w).channel = .open)
    {message : ToWorker} (arrived : s.toWorker[i]? = some (w, message)) :
    Granted ({ s with toWorker := s.toWorker.eraseIdx i }.receiveInWorker w message) := by
  cases message with
  | reply => exact granted.listening opened arrived
  | newconn seq key h => exact (granted.taken i).onconnection opened seq key h
  | disconnect seq => exact (granted.taken i).disconnect opened

/-! ## Every step -/

theorem fork : Granted
    { s.setWorker (s.ids + 1) { s.workers (s.ids + 1) with channel := .open } with
      ids := s.ids + 1 } := by
  have unborn := granted.fresh _ (Nat.lt_succ_self s.ids)
  refine granted.of_le rfl rfl ?_ ?_ granted.silent ?_
  · intro w
    by_cases here : w = s.ids + 1
    · subst here
      simp [gone, workers_setWorker, unborn]
    · rw [gone, workers_setWorker_of_ne _ here, gone]
  · intro w key
    refine Nat.add_le_add_right (Nat.add_le_add_right (Nat.le_of_eq ?_) _) _
    by_cases here : w = s.ids + 1
    · rw [here, workers_setWorker]
    · rw [workers_setWorker_of_ne _ here]
  intro w new
  have later : s.ids + 1 < w := new
  have other : w ≠ s.ids + 1 := Nat.ne_of_gt later
  rw [workers_setWorker_of_ne _ other]
  exact granted.fresh w (Nat.lt_of_succ_lt later)

theorem depart (shut : (s.workers w).channel = .shut) (drained : w ∉ s.toMaster.map (·.1)) :
    Granted (s.setWorker w { s.workers w with channel := .gone }) := by
  have stays {w' : WorkerId}
    (live : ¬(s.setWorker w { s.workers w with channel := .gone }).gone w') :
      w' ≠ w ∧ ¬s.gone w' := by grind [gone, workers_setWorker, workers_setWorker_of_ne]
  have same {w' : WorkerId} (other : w' ≠ w) (key : Key) :
      (s.setWorker w { s.workers w with channel := .gone }).held w' key = s.held w' key := by
    rw [held, workers_setWorker_of_ne _ other]
    rfl
  refine ⟨?_, ?_, ?_, ?_, ?_⟩
  · intro w' key live
    obtain ⟨other, live⟩ := stays live
    rw [same other]
    exact granted.once w' key live
  · intro w' key live some_
    obtain ⟨other, live⟩ := stays live
    rw [same other] at some_
    exact granted.server w' key live some_
  · intro r binding
    obtain ⟨nodup, members⟩ := granted.queue r binding
    refine ⟨nodup, fun waiting mem => (members waiting mem).imp_right fun gone => ?_⟩
    by_contra live
    exact (stays live).2 gone
  · intro m mem gone
    have other : m.1 ≠ w := fun here => drained (here ▸ List.mem_map_of_mem mem)
    rw [State.gone, workers_setWorker_of_ne _ other] at gone
    exact granted.silent m mem gone
  intro w' new
  have unborn := granted.fresh w' new
  have other : w' ≠ w := by
    rintro rfl
    simp [shut] at unborn
  rw [workers_setWorker_of_ne _ other]
  exact unborn

/-- One step grants a worker nothing that the master does not know of, if it finds its handle. -/
theorem step (tabled : Tabled s) (custody : Custody [] s) {action : Action}
    (drained : s.drained action = true) (finds : s.findsHandle action = true)
    (stepped : s.step action = some s') : Granted s' := by
  cases transition_of_step stepped with
  | fork => exact granted.fork
  | onconnection r =>
    refine Granted.distribute ?_ r _
    exact granted.keep ⟨rfl, rfl, rfl, rfl, fun _ => rfl, fun _ => rfl, fun _ => rfl,
      fun _ => rfl⟩ rfl fun _ _ => rfl
  | onconnectionError r => exact granted.distribute r none
  | listening r ready =>
    obtain ⟨settled, grantable⟩ := granted.settle tabled ready.1 ready.2 .listening
      (by simp)
    exact settled.done _ grantable
  | error r errno ready =>
    by_cases wrong : errno = 0
    · subst wrong
      obtain ⟨settled, grantable⟩ := granted.settle tabled ready.1 ready.2 .failed
        (by simp)
      exact settled.failures_zero _ grantable
    have few : (s.rrs r).waiting.length ≤ 1 := by simpa [State.findsHandle, wrong] using finds
    exact granted.failure tabled ready.1 ready.2 wrong few
  | toMaster i w message arrived => exact granted.receive tabled custody arrived finds
  | toWorker i w message arrived opened => exact granted.receiveInWorker opened arrived
  | listen w key opened =>
    have asked : Granted (s.setWorker w { s.workers w with
        callbacks := (s.workers w).callbacks ++ [(s.workers w).seq] }) :=
      granted.setWorker opened (by simp [opened]) rfl
    refine asked.post ?_ ?_
    · rw [workers_setWorker]
      exact opened
    · simp
  | close w key ready => exact granted.closeServer ready.1 ready.2
  | disconnect w opened => exact granted.disconnect opened
  | exit w opened => exact granted.setWorker opened (by simp) rfl
  | tellDisconnect w => exact granted.send w fun _ _ => rfl
  | disconnected w shut =>
    have departed := granted.depart shut (by simpa [State.drained] using drained)
    refine departed.removeHandles _ tabled.keys (tabled.of_eq rfl rfl rfl)
      (custody.of_eq rfl rfl (List.Subset.refl _) rfl rfl rfl) ?_ ?_
    · rw [gone, workers_setWorker]
    intro e mem _
    exact List.all_eq_true.mp finds e mem

end

end Granted

end IoJs.Cluster
