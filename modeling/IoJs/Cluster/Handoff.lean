import IoJs.Cluster.Custody
import Mathlib.Data.List.Perm.Basic

/-!
# Connections are neither lost nor duplicated

Every outstanding hand-off has at most one message under way: the connection on its way to the
worker, or the answer on its way back. So a connection that a worker has accepted is not handed to
another.
-/

namespace IoJs.Cluster

open List

/-- The hand-off that a message is. -/
def ToWorker.newconn? : ToWorker → Option (Nat × Handle)
  | .newconn seq _ handle => some (seq, handle)
  | _ => none

/-- The answer that a message is. -/
def ToMaster.ack? : ToMaster → Option (Nat × Bool)
  | .ack seq accepted => some (seq, accepted)
  | _ => none

namespace State

/-- The hand-offs under way -/
def newconns (s : State) : List (Nat × Handle) := s.toWorker.filterMap (·.2.newconn?)

/-- The answers under way -/
def acks (s : State) : List (Nat × Bool) := s.toMaster.filterMap (·.2.ack?)

end State

/-- What is under way belongs to an outstanding hand-off. -/
structure Posted (s : State) : Prop where
  seqs : (s.callbacks.map (·.1)).Nodup
  below : ∀ e ∈ s.callbacks, e.1 < s.seq
  newconn : ∀ m ∈ s.newconns, ∃ e ∈ s.callbacks, e.1 = m.1 ∧ e.2.handle = m.2
  ack : ∀ m ∈ s.acks, ∃ e ∈ s.callbacks, e.1 = m.1
  distinct : (s.newconns.map (·.1) ++ s.acks.map (·.1)).Nodup
  once : ∀ h, s.acceptances h ≤ 1
  -- what has been accepted is reported, or the report is under way
  told : ∀ h, s.acceptances h ≠ 0 →
    s.reports h ≠ 0 ∨ ∃ e ∈ s.callbacks, e.2.handle = h ∧ (e.1, true) ∈ s.acks

namespace Posted

open State

variable {s s' : State} {message : Nat → ToWorker}

theorem initial : Posted State.initial := by
  refine ⟨nodup_nil, ?_, ?_, ?_, nodup_nil, ?_, ?_⟩
  · intro e member
    cases member
  · intro m member
    cases member
  · intro m member
    cases member
  · intro h
    exact Nat.zero_le 1
  intro h some_
  exact absurd rfl some_

section

variable (posted : Posted s)
include posted

theorem of_eq (callbacks : s'.callbacks = s.callbacks) (seq : s.seq ≤ s'.seq)
    (newconns : s'.newconns.Perm s.newconns) (acks : s'.acks.Perm s.acks)
    (taken : ∀ h, s'.acceptances h = s.acceptances h) (reports : ∀ h, s'.reports h = s.reports h) :
    Posted s' := by
  refine ⟨?_, ?_, ?_, ?_, ?_, ?_, ?_⟩
  · rw [callbacks]
    exact posted.seqs
  · rw [callbacks]
    intro e member
    exact Nat.lt_of_lt_of_le (posted.below e member) seq
  · rw [callbacks]
    intro m member
    exact posted.newconn m (newconns.mem_iff.mp member)
  · rw [callbacks]
    intro m member
    exact posted.ack m (acks.mem_iff.mp member)
  · exact ((newconns.map _).append (acks.map _)).nodup_iff.mpr posted.distinct
  · intro h
    rw [taken]
    exact posted.once h
  intro h
  rw [taken, reports, callbacks]
  intro some_
  rcases posted.told h some_ with reported | ⟨e, inside, eq, underway⟩
  · exact .inl reported
  · exact .inr ⟨e, inside, eq, acks.mem_iff.mpr underway⟩

theorem setRR (r : Nat) (rr : RoundRobinHandle) : Posted (s.setRR r rr) :=
  posted.of_eq rfl (Nat.le_refl _) (.refl _) (.refl _) (fun _ => rfl) (fun _ => rfl)

theorem setWorker (w : WorkerId) (worker : Worker) : Posted (s.setWorker w worker) :=
  posted.of_eq rfl (Nat.le_refl _) (.refl _) (.refl _) (fun _ => rfl) (fun _ => rfl)

theorem send (worker : WorkerId)
    (other : ∀ seq, (message seq).newconn? = none) : Posted (s.send worker message) := by
  refine posted.of_eq rfl (Nat.le_succ _) (.of_eq ?_) (.refl _) (fun _ => rfl) (fun _ => rfl)
  simp [newconns, State.send, other]

theorem log {events : List Event} (taken : events.filterMap Event.taken = [])
    (reported : events.filterMap Event.reported = []) : Posted (s.log events) := by
  refine posted.of_eq rfl (Nat.le_refl _) (.refl _) (.refl _) (fun h => ?_) (fun h => ?_)
  · rw [acceptances_log, taken]
    rfl
  rw [reports_log, reported]
  rfl

theorem sendWith (worker : WorkerId)
    {callback : Handoff} (handed : ∀ seq, (message seq).newconn? = some (seq, callback.handle)) :
    Posted (s.sendWith worker message callback) := by
  have callbacks : (s.sendWith worker message callback).callbacks =
      s.callbacks ++ [(s.seq, callback)] := rfl
  have acks : (s.sendWith worker message callback).acks = s.acks := rfl
  have newconns : (s.sendWith worker message callback).newconns =
      s.newconns ++ [(s.seq, callback.handle)] := by
    simp [State.newconns, State.sendWith, State.send, handed]
  have fresh : ∀ e ∈ s.callbacks, e.1 ≠ s.seq := fun e member =>
    Nat.ne_of_lt (posted.below e member)
  refine ⟨?_, ?_, ?_, ?_, ?_, posted.once, ?_⟩
  · rw [callbacks, map_append, nodup_append]
    refine ⟨posted.seqs, nodup_singleton _, ?_⟩
    intro n member n' member'
    obtain ⟨e, inside, rfl⟩ := List.mem_map.mp member
    obtain rfl := mem_singleton.mp member'
    exact fresh e inside
  · intro e member
    rcases mem_append.mp member with before | here
    · exact Nat.lt_succ_of_lt (posted.below e before)
    obtain rfl := mem_singleton.mp here
    exact Nat.lt_succ_self _
  · rw [callbacks, newconns]
    intro m member
    rcases mem_append.mp member with before | here
    · obtain ⟨e, inside, eq⟩ := posted.newconn m before
      exact ⟨e, mem_append_left _ inside, eq⟩
    obtain rfl := mem_singleton.mp here
    exact ⟨_, mem_append_right _ mem_cons_self, rfl, rfl⟩
  · intro m member
    obtain ⟨e, inside, eq⟩ := posted.ack m member
    exact ⟨e, mem_append_left _ inside, eq⟩
  · have unused : s.seq ∉ s.newconns.map (·.1) ++ s.acks.map (·.1) := by
      intro member
      rcases mem_append.mp member with inside | inside
      · obtain ⟨m, here, eq⟩ := List.mem_map.mp inside
        obtain ⟨e, inside, eq', -⟩ := posted.newconn m here
        exact fresh e inside (eq'.trans eq)
      obtain ⟨m, here, eq⟩ := List.mem_map.mp inside
      obtain ⟨e, inside, eq'⟩ := posted.ack m here
      exact fresh e inside (eq'.trans eq)
    have moved : (s.newconns.map (·.1) ++ s.seq :: s.acks.map (·.1)).Perm
        (s.seq :: (s.newconns.map (·.1) ++ s.acks.map (·.1))) := perm_middle
    simpa [newconns, acks] using moved.nodup_iff.mpr (nodup_cons.mpr ⟨unused, posted.distinct⟩)
  intro h some_
  rcases posted.told h some_ with reported | ⟨e, inside, eq, underway⟩
  · exact .inl reported
  · exact .inr ⟨e, mem_append_left _ inside, eq, underway⟩

theorem handoff (r : Nat) (worker : WorkerId) : Posted (s.handoff r worker) := by
  obtain ⟨h, rest, -, eq⟩ | ⟨rest, free, -, eq⟩ | eq := s.handoff_cases r worker
  · rw [eq]
    exact (posted.setRR r _).sendWith worker (fun _ => rfl)
  · rw [eq]
    exact posted.setRR r _
  rw [eq]
  exact posted

theorem distribute (r : Nat) (handle : Option Handle) : Posted (s.distribute r handle) := by
  rw [State.distribute]
  rcases (s.rrs r).free with _ | ⟨worker, free⟩
  · exact posted.setRR r _
  · exact (posted.setRR r _).handoff r worker

theorem forget (key : Key) : Posted { s with handles := s.handles.filter (·.1 ≠ key) } :=
  posted.of_eq rfl (Nat.le_refl _) (.refl _) (.refl _) (fun _ => rfl) (fun _ => rfl)

theorem reply {key : Key} {waiting : Waiting} {errno : Int}
    (replied : s.reply key waiting errno = some s') : Posted s' := by
  rw [State.reply] at replied
  split_ifs at replied with known failed
  · cases replied
    exact (posted.forget key).send _ (fun _ => rfl)
  cases replied
  exact posted.send _ (fun _ => rfl)

theorem done (r : Nat) (waiting : List Waiting) : Posted (s.done r waiting) := by
  induction waiting generalizing s with
  | nil => exact posted
  | cons w waiting ih =>
    rw [State.done]
    cases replied : s.reply (s.rrs r).key w 0 with
    | none => exact posted
    | some s' => exact ih ((posted.reply replied).handoff r w.worker)

theorem failures (r : Nat) (errno : Int) (waiting : List Waiting) :
    Posted (s.failures r errno waiting) := by
  induction waiting generalizing s with
  | nil => exact posted
  | cons w waiting ih =>
    rw [State.failures]
    cases replied : s.reply (s.rrs r).key w errno with
    | none => exact posted
    | some s' => exact ih (posted.reply replied)

theorem add (r : Nat) (waiting : Waiting) : Posted (s.add r waiting) := by
  rw [State.add]
  split_ifs with member
  · exact posted
  cases (s.rrs r).socket with
  | listening => exact (posted.setRR r _).done r _
  | closed | binding | failed => exact posted.setRR r _

theorem queryServer (key : Key) (waiting : Waiting) : Posted (s.queryServer key waiting) := by
  rw [State.queryServer]
  cases s.handles.find? (·.1 = key) with
  | some entry => exact posted.add entry.2 waiting
  | none =>
    apply add
    exact posted.of_eq rfl (Nat.le_refl _) (.refl _) (.refl _) (fun _ => rfl) (fun _ => rfl)

theorem removeKey (entry : Key × Nat) (worker : WorkerId) :
    Posted (s.removeKey entry worker).1 := by
  have closed : ∀ handles : List Handle, Posted (s.log (handles.map .closed)) := by
    intro handles
    refine posted.log ?_ ?_
    · simp [filterMap_map, Function.comp_def, Event.taken]
    · simp [filterMap_map, Function.comp_def, Event.reported]
  have removed := s.removed entry worker
  generalize s.removeKey entry worker = result at removed ⊢
  cases removed with
  | absent => exact posted
  | left => exact posted.setRR entry.2 _
  | closed => exact ((closed _).setRR entry.2 _).forget entry.1
  | threw => exact (closed _).setRR entry.2 _

end

end Posted

/-! ## The last operations of the master -/

section Master

variable {s : State}
variable {seq i : Nat} {e : Nat × Handoff} {hand : List Handle} {h : Handoff} {accepted : Bool}

/-- Both, with nothing in hand. -/
structure Inv (s : State) : Prop where
  custody : Custody [] s
  posted : Posted s

theorem Inv.initial : Inv State.initial := ⟨.initial, .initial⟩

theorem Inv.removeKey {entry : Key × Nat} (inv : Inv s) (mem : entry ∈ s.handles)
    (worker : WorkerId) : Inv (s.removeKey entry worker).1 :=
  ⟨inv.custody.removeKey mem worker, inv.posted.removeKey entry worker⟩

theorem Inv.close (inv : Inv s) (key : Key) (worker : WorkerId) : Inv (s.close key worker) := by
  rw [State.close]
  cases found : s.handles.find? (·.1 = key) with
  | none => exact inv
  | some => exact inv.removeKey (mem_of_find?_eq_some found) worker

theorem Inv.removeHandles (inv : Inv s) (worker : WorkerId) (keys : List Key) :
    Inv (s.removeHandles worker keys) := by
  have invariant := State.removeHandles_invariant (w := worker) (P := fun _ => Inv) id
    (fun inv mem _ => inv.removeKey mem worker) keys inv
  exact invariant.choose_spec

theorem perm_of_find {callbacks : List (Nat × Handoff)} (seqs : (callbacks.map (·.1)).Nodup)
    (found : callbacks.find? (·.1 = seq) = some e) :
    callbacks.Perm (e :: callbacks.filter (·.1 ≠ seq)) := by
  induction callbacks with
  | nil => cases found
  | cons first callbacks ih =>
    rw [map_cons, nodup_cons] at seqs
    by_cases here : first.1 = seq
    · rw [List.find?_cons_of_pos (by simpa using here), Option.some.injEq] at found
      have others : callbacks.filter (·.1 ≠ seq) = callbacks := by
        rw [filter_eq_self]
        intro e' member
        rw [decide_eq_true_eq]
        intro same
        exact seqs.1 (List.mem_map.mpr ⟨e', member, same.trans here.symm⟩)
      rw [filter_cons_of_neg (by simpa using here), others, found]
    rw [List.find?_cons_of_neg (by simpa using here)] at found
    rw [filter_cons_of_pos (by simpa using here)]
    exact ((ih seqs.2 found).cons first).trans (List.Perm.swap e first _)

theorem perm_eraseIdx {α : Type} {l : List α} {m : α} (found : l[i]? = some m) :
    l.Perm (m :: l.eraseIdx i) := by
  obtain ⟨small, rfl⟩ := List.getElem?_eq_some_iff.mp found
  exact (getElem_cons_eraseIdx_perm small).symm

theorem Custody.takeBack (custody : Custody hand s)
    (perm : s.callbacks.Perm (e :: s.callbacks.filter (·.1 ≠ seq))) :
    Custody (e.2.handle :: hand) { s with callbacks := s.callbacks.filter (·.1 ≠ seq) } := by
  refine ⟨custody.home, ?_, ?_, custody.once, custody.numbered, custody.reported, custody.shut,
    custody.table, custody.unused, custody.quiet⟩
  · intro e' member
    exact custody.callbacks e' (mem_filter.mp member).1
  intro h
  have before := custody.located h
  have count := (perm.map (·.2.handle)).count_eq h
  rw [map_cons, ← singleton_append, count_append] at count
  rw [State.outstanding, count] at before
  rw [← singleton_append, count_append]
  have same : State.queued { s with callbacks := s.callbacks.filter (·.1 ≠ seq) } h =
    s.queued h := rfl
  have same' : State.closings { s with callbacks := s.callbacks.filter (·.1 ≠ seq) } h =
    s.closings h := rfl
  have same'' : State.arrivals { s with callbacks := s.callbacks.filter (·.1 ≠ seq) } h =
    s.arrivals h := rfl
  have rest : State.outstanding { s with callbacks := s.callbacks.filter (·.1 ≠ seq) } h =
    ((s.callbacks.filter (·.1 ≠ seq)).map (·.2.handle)).count h := rfl
  omega

theorem Custody.answered (custody : Custody (h.handle :: hand) s) (home : h.handle.home = h.rr)
    (started : (s.rrs h.rr).socket.Started) (accepted : Bool) :
    Custody hand (s.answered h accepted) := by
  have made := custody.made started
  cases accepted with
  | true =>
    have count : ∀ h', [Event.replied h.worker h.handle true, .closed h.handle].count
        (.closed h') = [h.handle].count h' := by
      intro h'
      exact count_map_closed [h.handle] h'
    have closed : Custody hand (s.log [.replied h.worker h.handle true, .closed h.handle]) := by
      refine custody.log ?_ ?_ ?_ ?_
      · intro h'
        rw [count, ← count_append, singleton_append]
      · intro h'
        exact count_eq_zero.mpr (by simp)
      · intro h'
        rw [count]
        exact Nat.le_refl _
      intro h' more
      rw [count] at more
      exact absurd more (Nat.lt_irrefl _)
    have two : (s.log [.replied h.worker h.handle true]).log [.closed h.handle] =
        s.log [.replied h.worker h.handle true, .closed h.handle] := by
      simp [State.log]
    rw [State.answered, if_pos rfl, two]
    exact closed.handoff made h.worker
  | false =>
    have refused : Custody (h.handle :: hand)
        (s.log [.replied h.worker h.handle false]) := by
      refine custody.log ?_ ?_ ?_ ?_
      · simp
      · simp
      · intro h'
        exact Nat.zero_le _
      · simp
    have back : Custody hand
        ((s.log [.replied h.worker h.handle false]).distribute h.rr (some h.handle)) := by
      refine Custody.distribute refused started ?_
      intro h' eq
      cases eq
      exact home
    have count : ((s.log [.replied h.worker h.handle false]).distribute h.rr
        (some h.handle)).count = s.count := by
      rw [State.distribute]
      rcases ((s.log [.replied h.worker h.handle false]).rrs h.rr).free with _ | ⟨w, free⟩
      · rfl
      · exact Custody.count_handoff _ _ _
    simpa [State.answered] using back.handoff (by rw [count]; exact made) h.worker

theorem Posted.replied (posted : Posted s) {toMaster : List (WorkerId × ToMaster)}
    (arrived : s.acks.Perm ((seq, accepted) :: toMaster.filterMap (·.2.ack?)))
    (found : s.callbacks.find? (·.1 = seq) = some e) :
    Posted ({ s with toMaster, callbacks := s.callbacks.filter (·.1 ≠ seq) }.log
      [.replied e.2.worker e.2.handle accepted]) := by
  have number : e.1 = seq := by simpa using List.find?_some found
  have member : e ∈ s.callbacks := mem_of_find?_eq_some found
  have nodup : (s.newconns.map (·.1) ++ seq :: (toMaster.filterMap (·.2.ack?)).map (·.1)).Nodup :=
    ((arrived.map (·.1)).append_left _).nodup_iff.mp posted.distinct
  obtain ⟨-, later, apart⟩ := nodup_append.mp nodup
  -- no other message is about this hand-off
  have newconns : ∀ m ∈ s.newconns, m.1 ≠ seq := fun m inside =>
    apart m.1 (List.mem_map_of_mem inside) seq mem_cons_self
  have acks : ∀ m ∈ toMaster.filterMap (·.2.ack?), m.1 ≠ seq := by
    intro m inside same
    exact (nodup_cons.mp later).1 (same ▸ List.mem_map_of_mem inside)
  have keep : ∀ e' ∈ s.callbacks, e'.1 ≠ seq → e' ∈ s.callbacks.filter (·.1 ≠ seq) := by
    intro e' inside other
    exact mem_filter.mpr ⟨inside, by simpa using other⟩
  have taken : ∀ h, ({ s with toMaster, callbacks := s.callbacks.filter (·.1 ≠ seq) }.log
      [.replied e.2.worker e.2.handle accepted]).acceptances h = s.acceptances h := by
    intro h
    rw [State.acceptances_log]
    rfl
  refine ⟨?_, ?_, ?_, ?_, ?_, ?_, ?_⟩
  · exact posted.seqs.sublist (filter_sublist.map _)
  · intro e' inside
    exact posted.below e' (mem_filter.mp inside).1
  · intro m inside
    obtain ⟨e', known, eq, handle⟩ := posted.newconn m inside
    exact ⟨e', keep e' known (eq ▸ newconns m inside), eq, handle⟩
  · intro m inside
    obtain ⟨e', known, eq⟩ := posted.ack m (arrived.mem_iff.mpr (mem_cons_of_mem _ inside))
    exact ⟨e', keep e' known (eq ▸ acks m inside), eq⟩
  · exact nodup.sublist (List.Sublist.append_left (sublist_cons_self _ _) _)
  · intro h
    rw [taken]
    exact posted.once h
  intro h some_
  rw [taken] at some_
  rw [State.reports_log]
  rcases posted.told h some_ with reported | ⟨e', known, handle, underway⟩
  · left
    have same : State.reports { s with
      toMaster, callbacks := s.callbacks.filter (·.1 ≠ seq) } h = s.reports h := rfl
    omega
  rcases mem_cons.mp (arrived.mem_iff.mp underway) with this | other
  · -- this is the report
    obtain ⟨eq, rfl⟩ := Prod.mk.inj this
    obtain rfl : e' = e := by
      apply inj_on_of_nodup_map posted.seqs known member
      rw [eq, number]
    left
    rw [← handle]
    simp [Event.reported]
  · exact .inr ⟨e', keep e' known (acks _ other), handle, other⟩

theorem Posted.answered (posted : Posted (s.log [.replied h.worker h.handle accepted])) :
    Posted (s.answered h accepted) := by
  apply Posted.handoff
  cases accepted with
  | true => exact posted.log rfl rfl
  | false => exact posted.distribute h.rr (some h.handle)

theorem Inv.receive (inv : Inv s) {w : WorkerId} {message : ToMaster}
    (arrived : s.toMaster[i]? = some (w, message)) :
    Inv ({ s with toMaster := s.toMaster.eraseIdx i }.receive w message) := by
  have perm := (perm_eraseIdx arrived).filterMap (·.2.ack?)
  have custody : Custody [] { s with toMaster := s.toMaster.eraseIdx i } :=
    inv.custody.of_eq rfl rfl (List.Subset.refl _) rfl rfl rfl
  cases message with
  | queryServer seq key =>
    have posted : Posted { s with toMaster := s.toMaster.eraseIdx i } :=
      inv.posted.of_eq rfl (Nat.le_refl _) (.refl _) perm.symm (fun _ => rfl) (fun _ => rfl)
    exact ⟨custody.queryServer key _, posted.queryServer key _⟩
  | close key =>
    have posted : Posted { s with toMaster := s.toMaster.eraseIdx i } :=
      inv.posted.of_eq rfl (Nat.le_refl _) (.refl _) perm.symm (fun _ => rfl) (fun _ => rfl)
    exact Inv.close ⟨custody, posted⟩ key w
  | ack seq accepted =>
    have reaches : s.acks.Perm
      ((seq, accepted) :: (s.toMaster.eraseIdx i).filterMap (·.2.ack?)) := perm
    obtain ⟨e, member, number⟩ := inv.posted.ack (seq, accepted)
      (reaches.mem_iff.mpr mem_cons_self)
    rw [State.receive]
    cases found : s.callbacks.find? (·.1 = seq) with
    | none =>
      have missing := List.find?_eq_none.mp found e member
      exact absurd (by simpa using number) missing
    | some e =>
      have known := mem_of_find?_eq_some found
      obtain ⟨home, started⟩ := inv.custody.callbacks e known
      have back := custody.takeBack (perm_of_find inv.posted.seqs found)
      exact ⟨back.answered home started accepted, (inv.posted.replied reaches found).answered⟩

end Master

/-! ## The workers -/

section Workers

variable {s : State} {h : Handle} {n i : Nat} {w : WorkerId}

section

variable (inv : Inv s) (w : WorkerId)
include inv

theorem Inv.setWorker (worker : Worker) : Inv (s.setWorker w worker) :=
  ⟨inv.custody.of_eq rfl rfl (List.Subset.refl _) rfl rfl rfl, inv.posted.setWorker w worker⟩

theorem Inv.post {message : ToMaster} (other : message.ack? = none) : Inv (s.post w message) := by
  refine ⟨inv.custody.of_eq rfl rfl (List.Subset.refl _) rfl rfl rfl, ?_⟩
  refine inv.posted.of_eq rfl (Nat.le_refl _) (.refl _) (.of_eq ?_) (fun _ => rfl) (fun _ => rfl)
  simp [State.acks, State.post, other]

theorem Inv.closeServer (key : Key) : Inv (s.closeServer w key) := (inv.post w rfl).setWorker w _

theorem Inv.disconnect : Inv (s.disconnect w) := by
  have closed : ∀ (keys : List Key) {s : State}, Inv s →
      Inv (keys.foldl (fun s key => s.closeServer w key) s) := by
    intro keys
    induction keys with
    | nil => exact id
    | cons key keys ih => exact fun inv => ih (inv.closeServer w key)
  exact (closed _ inv).setWorker w _

end

theorem eq_of_outstanding {callbacks : List (Nat × Handoff)}
    (few : (callbacks.map (·.2.handle)).count h ≤ 1) {e e' : Nat × Handoff}
    (member : e ∈ callbacks) (member' : e' ∈ callbacks) (handle : e.2.handle = h)
    (handle' : e'.2.handle = h) : e = e' := by
  induction callbacks with
  | nil => cases member
  | cons first callbacks ih =>
    rw [map_cons, count_cons] at few
    have later : ∀ e'' ∈ callbacks, e''.2.handle = h →
        0 < (callbacks.map (·.2.handle)).count h := by
      intro e'' inside eq
      exact count_pos_iff.mpr (List.mem_map.mpr ⟨e'', inside, eq⟩)
    rcases mem_cons.mp member with rfl | inside
    · grind
    rcases mem_cons.mp member' with rfl | inside'
    · have some_ := later e inside handle
      simp only [handle', BEq.rfl, if_true] at few
      omega
    · exact ih (by omega) inside inside'

theorem Posted.delivered {t : State} (posted : Posted s) {b : Bool}
    (callbacks : t.callbacks = s.callbacks) (seq : t.seq = s.seq)
    (newconns : s.newconns.Perm ((n, h) :: t.newconns)) (acks : t.acks = s.acks ++ [(n, b)])
    (reports : ∀ h', t.reports h' = s.reports h')
    (taken : ∀ h', t.acceptances h' = s.acceptances h' + if b then [h].count h' else 0)
    (first : s.acceptances h = 0) : Posted t := by
  obtain ⟨e, known, number, handle⟩ := posted.newconn (n, h)
    (newconns.mem_iff.mpr mem_cons_self)
  refine ⟨?_, ?_, ?_, ?_, ?_, ?_, ?_⟩
  · rw [callbacks]
    exact posted.seqs
  · rw [callbacks, seq]
    exact posted.below
  · rw [callbacks]
    intro m inside
    exact posted.newconn m (newconns.mem_iff.mpr (mem_cons_of_mem _ inside))
  · rw [callbacks, acks]
    intro m inside
    rcases mem_append.mp inside with before | here
    · exact posted.ack m before
    obtain rfl := mem_singleton.mp here
    exact ⟨e, known, number⟩
  · have moved : (s.newconns.map (·.1) ++ s.acks.map (·.1)).Perm
        (t.newconns.map (·.1) ++ t.acks.map (·.1)) := by grind
    exact moved.nodup_iff.mp posted.distinct
  · intro h'
    have before := posted.once h'
    rw [taken]
    split_ifs
    · grind
    · exact before
  intro h' some_
  rw [reports, callbacks, acks]
  by_cases before : s.acceptances h' = 0
  · -- the one that is accepted now
    rw [taken, before, Nat.zero_add] at some_
    split_ifs at some_ with yes
    · have same : h = h' := by
        by_contra other
        exact some_ (by simp [other])
      refine .inr ⟨e, known, handle.trans same, ?_⟩
      simp [number, yes]
    · exact absurd rfl some_
  rcases posted.told h' before with reported | ⟨e', inside, eq, underway⟩
  · exact .inl reported
  · exact .inr ⟨e', inside, eq, mem_append_left _ underway⟩

theorem Inv.not_accepted (inv : Inv s) (underway : (n, h) ∈ s.newconns) : s.acceptances h = 0 := by
  obtain ⟨e, known, number, handle⟩ := inv.posted.newconn (n, h) underway
  have out : 0 < s.outstanding h := count_pos_iff.mpr (List.mem_map.mpr ⟨e, known, handle⟩)
  have located := inv.custody.located h
  have once := inv.custody.once h
  by_contra some_
  rcases inv.posted.told h some_ with reported | ⟨e', inside, eq, answered⟩
  · have closed := inv.custody.reported h
    omega
  have few : s.outstanding h ≤ 1 := by omega
  obtain rfl := eq_of_outstanding few known inside handle eq
  obtain ⟨-, -, apart⟩ := nodup_append.mp inv.posted.distinct
  refine apart n (List.mem_map.mpr ⟨_, underway, rfl⟩) n ?_ rfl
  exact List.mem_map.mpr ⟨_, answered, number⟩

theorem Inv.onconnection (inv : Inv s) {seq : Nat} {key : Key}
    (arrived : s.toWorker[i]? = some (w, .newconn seq key h)) :
    Inv ({ s with toWorker := s.toWorker.eraseIdx i }.onconnection w seq key h) := by
  have shorter := (perm_eraseIdx arrived).filterMap (·.2.newconn?)
  have perm : s.newconns.Perm
    ((seq, h) :: (s.toWorker.eraseIdx i).filterMap (·.2.newconn?)) := shorter
  have first := inv.not_accepted (perm.mem_iff.mpr mem_cons_self)
  have posts : ∀ b, Custody [] (State.post { s with toWorker := s.toWorker.eraseIdx i } w
      (.ack seq b)) := fun b =>
    inv.custody.of_eq rfl rfl (List.Subset.refl _) rfl rfl rfl
  have acks : ∀ b, (State.post { s with toWorker := s.toWorker.eraseIdx i } w
      (.ack seq b)).acks = s.acks ++ [(seq, b)] := by simp [State.acks, State.post, ToMaster.ack?]
  rw [State.onconnection]
  cases decide (key ∈ (s.workers w).handles) with
  | false =>
    refine ⟨posts false, ?_⟩
    exact inv.posted.delivered rfl rfl perm (acks false) (fun _ => rfl) (fun _ => rfl) first
  | true =>
    constructor
    · refine (posts true).log ?_ ?_ ?_ ?_
      · simp
      · simp
      · intro h'
        exact Nat.zero_le _
      · simp
    refine inv.posted.delivered rfl rfl perm (acks true) ?_ ?_ first
    · intro h'
      simp only [if_true]
      rw [State.reports_log]
      rfl
    intro h'
    simp only [if_true]
    rw [State.acceptances_log]
    rfl

theorem Inv.receiveInWorker (inv : Inv s) {message : ToWorker}
    (arrived : s.toWorker[i]? = some (w, message)) :
    Inv ({ s with toWorker := s.toWorker.eraseIdx i }.receiveInWorker w message) := by
  have perm := (perm_eraseIdx arrived).filterMap (·.2.newconn?)
  have custody : Custody [] { s with toWorker := s.toWorker.eraseIdx i } :=
    inv.custody.of_eq rfl rfl (List.Subset.refl _) rfl rfl rfl
  cases message with
  | newconn => exact inv.onconnection arrived
  | reply =>
    have posted : Posted { s with toWorker := s.toWorker.eraseIdx i } :=
      inv.posted.of_eq rfl (Nat.le_refl _) perm.symm (.refl _) (fun _ => rfl) (fun _ => rfl)
    have rest : Inv { s with toWorker := s.toWorker.eraseIdx i } := ⟨custody, posted⟩
    rw [State.receiveInWorker, State.listening]
    dsimp only
    split_ifs
    · exact rest.setWorker w _
    · exact rest.setWorker w _
    · exact rest
  | disconnect seq =>
    have posted : Posted { s with toWorker := s.toWorker.eraseIdx i } :=
      inv.posted.of_eq rfl (Nat.le_refl _) perm.symm (.refl _) (fun _ => rfl) (fun _ => rfl)
    exact Inv.disconnect ⟨custody, posted⟩ w

end Workers

/-! ## Every run -/

variable {s : State}

/-- **Every step keeps** each connection in one place, with no condition on the action. -/
theorem Inv.step {s' : State} (inv : Inv s) {action : State.Action}
    (stepped : s.step action = some s') : Inv s' := by
  obtain ⟨custody, posted⟩ := inv
  cases State.transition_of_step stepped with
  | fork =>
    exact ⟨custody.of_eq rfl rfl (List.Subset.refl _) rfl rfl rfl,
      posted.of_eq rfl (Nat.le_refl _) (.refl _) (.refl _) (fun _ => rfl) (fun _ => rfl)⟩
  | onconnection r ready =>
    have arrives : Custody ((some (s.accept r)).toList ++ []) (s.arrive (s.accept r)) :=
      custody.arrive r
    refine ⟨arrives.distribute (.inl ready.2) ?_, ?_⟩
    · intro h eq
      cases eq
      rfl
    apply Posted.distribute
    have counted : Posted { s with connections := s.connections + 1 } :=
      posted.of_eq rfl (Nat.le_refl _) (.refl _) (.refl _) (fun _ => rfl) (fun _ => rfl)
    exact counted.log rfl rfl
  | onconnectionError r ready =>
    have nothing : Custody ((none : Option Handle).toList ++ []) s := custody
    refine ⟨nothing.distribute (.inl ready.2) ?_, posted.distribute r none⟩
    intro h impossible
    cases impossible
  | listening r ready =>
    have opened : Custody [] (s.setRR r
        { s.rrs r with socket := .listening, waiting := [] }) :=
      custody.enlist ready.1 (by simp [ready.2]) rfl rfl (by simp) (fun _ => .inl rfl)
    exact ⟨opened.done ready.1 _, (posted.setRR r _).done r _⟩
  | error r errno ready =>
    have failed : Custody [] (s.setRR r { s.rrs r with socket := .failed, waiting := [] }) := by
      refine custody.enlist ready.1 (by simp [ready.2]) rfl rfl (by simp) ?_
      rw [ready.2]
      rintro (impossible | impossible)
      · cases impossible
      · cases impossible
    exact ⟨failed.failures r errno _, (posted.setRR r _).failures r errno _⟩
  | toMaster i w message arrived => exact Inv.receive ⟨custody, posted⟩ arrived
  | toWorker i w message arrived => exact Inv.receiveInWorker ⟨custody, posted⟩ arrived
  | listen w => exact (Inv.setWorker ⟨custody, posted⟩ w _).post w rfl
  | close w key => exact Inv.closeServer ⟨custody, posted⟩ w key
  | disconnect w => exact Inv.disconnect ⟨custody, posted⟩ w
  | exit w => exact Inv.setWorker ⟨custody, posted⟩ w _
  | tellDisconnect w => exact ⟨custody.send w _, posted.send w (fun _ => rfl)⟩
  | disconnected w shut => exact (Inv.setWorker ⟨custody, posted⟩ w _).removeHandles w _

theorem Inv.of_reached (reached : s.Reached) : Inv s :=
  reached.invariant Inv .initial fun inv _ stepped => inv.step stepped

/-- At any time a connection is in exactly one place: in the queue of its `RoundRobinHandle`, in one
outstanding hand-off, or closed, after exactly one worker reported that it accepted it, or because
there are no workers left. At most one worker accepts it. -/
theorem connection_in_one_place {s : State} (reached : s.Reached) {h : Handle}
    (arrived : .connection h ∈ s.trace) :
    s.queued h + s.outstanding h + s.closings h = 1 ∧
      (∀ r, some h ∈ (s.rrs r).handles → r = h.home) ∧
      (∀ e ∈ s.callbacks, e.2.handle = h → e.2.rr = h.home) ∧
      (s.closings h = 1 → s.reports h = 1 ∨
        s.reports h = 0 ∧ (s.rrs h.home).all = [] ∧ (s.rrs h.home).socket = .closed) ∧
      (s.closings h = 0 → s.reports h = 0) ∧
      s.acceptances h ≤ 1 := by
  obtain ⟨custody, posted⟩ := Inv.of_reached reached
  have located := custody.located h
  have once := custody.once h
  have some_ : 0 < s.arrivals h := count_pos_iff.mpr arrived
  have reported := custody.reported h
  rw [count_nil] at located
  refine ⟨by omega, ?_, ?_, ?_, ?_, posted.once h⟩
  · intro r member
    exact (custody.home r h member).symm
  · intro e member handle
    rw [← handle]
    exact (custody.callbacks e member).1.symm
  · intro closed
    by_cases one : s.reports h = 1
    · exact .inl one
    obtain ⟨socket, all⟩ := custody.shut h (by omega)
    exact .inr ⟨by omega, all, socket⟩
  · omega

/-- A connection that the first worker sends back, because it is closing, and the second accepts. -/
def sentBack : List State.Action :=
  [.fork, .fork, .listen 1 "8080", .listen 2 "8080", .toMaster 0, .toMaster 0, .listening 0,
    .toWorker 0, .toWorker 0, .onconnection 0, .close 1 "8080", .toWorker 0, .toMaster 1,
    .toWorker 0, .toMaster 1]

theorem connection_in_one_place_sent_back : ∃ s : State, s.Reached ∧ .connection ⟨0, 0⟩ ∈ s.trace ∧
    .replied 1 ⟨0, 0⟩ false ∈ s.trace ∧ s.closings ⟨0, 0⟩ = 1 ∧
    s.queued ⟨0, 0⟩ + s.outstanding ⟨0, 0⟩ + s.closings ⟨0, 0⟩ = 1 ∧
    s.acceptances ⟨0, 0⟩ ≤ 1 := by
  obtain ⟨s, reached, arrived, refused, closed⟩ := Library.Run.exists_of_exec State.step
    (fun _ _ => True) State.initial
    (fun s => .connection ⟨0, 0⟩ ∈ s.trace ∧ .replied 1 ⟨0, 0⟩ false ∈ s.trace ∧
      s.closings ⟨0, 0⟩ = 1) sentBack (by decide)
  obtain ⟨one, -, -, -, -, accepted⟩ := connection_in_one_place reached arrived
  exact ⟨s, reached, arrived, refused, closed, one, accepted⟩

end IoJs.Cluster
