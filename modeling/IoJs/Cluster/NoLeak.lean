import IoJs.Cluster.Table

/-!
# No connection is leaked

A connection that the master holds is in the queue of a `RoundRobinHandle` that is in the table, or
in a callback whose message or whose answer is under way (`Kept`). From both the master gets it
again.
-/

namespace IoJs.Cluster

open List Option

namespace State

/-- A worker that gets messages -/
def connected (s : State) (w : WorkerId) : Bool := (s.workers w).channel = .open

/-- A connection is on its way to a worker. -/
def inbound (s : State) (w : WorkerId) : Bool :=
  s.toWorker.any fun m => m.1 = w && m.2.newconn?.isSome

/-- A `RoundRobinHandle` is in the table. -/
def inTable (s : State) (r : Nat) : Bool := s.handles.any (·.2 = r)

/-- If there is something in the queue for a worker, or `more` to come, then the worker is
connected. -/
def deliverable (s : State) (r : Nat) (w : WorkerId) (more : Bool) : Bool :=
  w ∉ (s.rrs r).all || ((s.rrs r).handles = [] && !more) || s.connected w

/-- The first worker that is ready is connected. -/
def readyConnected (s : State) (r : Nat) : Bool := (s.rrs r).free.head?.all s.connected

/-- The queue of a `RoundRobinHandle` is closed with its last worker. -/
def closable (s : State) (r : Nat) (w : WorkerId) : Bool :=
  w ∉ (s.rrs r).all || (s.rrs r).all.filter (· ≠ w) ≠ [] ||
    (shifted (s.rrs r).handles).2.all Option.isNone

/-- The messages to the master that leak nothing -/
def leakless (s : State) (w : WorkerId) : ToMaster → Bool
  | .queryServer _ key =>
    (s.handles.find? (·.1 = key)).all fun entry =>
      (s.rrs entry.2).handles = [] || w ∈ (s.rrs entry.2).all || s.connected w
  | .close key => (s.handles.find? (·.1 = key)).all fun entry => s.closable entry.2 w
  | .ack seq accepted =>
    (s.callbacks.find? (·.1 = seq)).all fun e =>
      if accepted then s.deliverable e.2.rr e.2.worker false
      else
        s.inTable e.2.rr && s.readyConnected e.2.rr &&
          s.deliverable e.2.rr e.2.worker
            ((s.rrs e.2.rr).free.head?.all (· ∉ (s.rrs e.2.rr).all))

/-- The actions that leak nothing -/
def keepsHold (s : State) : Action → Bool
  | .onconnection r => s.readyConnected r
  | .onconnectionError r => (s.rrs r).handles = [] || s.readyConnected r
  | .toMaster i => s.toMaster[i]?.all fun message => s.leakless message.1 message.2
  | .toWorker i => s.toWorker[i]?.all fun message =>
    match message.2 with
    | .disconnect _ => !s.inbound message.1
    | _ => true
  | .disconnect w => !s.inbound w
  | .exit w => !s.inbound w
  | .disconnected w => s.handles.all fun entry => s.closable entry.2 w
  | _ => true

/-- A callback that will be called: its message is on its way to a worker that gets it, or the
answer is on its way back. -/
def Callable (s : State) (e : Nat × Handoff) : Prop :=
  (∃ key h, (e.2.worker, ToWorker.newconn e.1 key h) ∈ s.toWorker ∧
    (s.workers e.2.worker).channel = .open) ∨
  ∃ accepted, (e.2.worker, ToMaster.ack e.1 accepted) ∈ s.toMaster

theorem Callable.mono {s s' : State} {e : Nat × Handoff} (callable : Callable s e)
    (toWorker : s.toWorker ⊆ s'.toWorker) (toMaster : s.toMaster ⊆ s'.toMaster)
    (connected : ∀ w, (s.workers w).channel = .open → (s'.workers w).channel = .open) :
    Callable s' e := by
  obtain ⟨key, h, mem, open_⟩ | ⟨accepted, mem⟩ := callable
  · exact .inl ⟨key, h, toWorker mem, connected _ open_⟩
  · exact .inr ⟨accepted, toMaster mem⟩

/-! ## What a hand-off leaves -/

section

variable (s : State) (r : Nat) (w : WorkerId)

theorem handoff_handles : ((s.handoff r w).rrs r).handles =
    if w ∈ (s.rrs r).all then (s.rrs r).handles.tail else (s.rrs r).handles := by
  rw [handoff]
  split_ifs with member
  · rcases handles : (s.rrs r).handles with _ | ⟨_ | h, rest⟩
    · simp
    · simp
    · simp [sendWith, send]
  · rfl

theorem distribute_handles (handle : Option Handle) (empty : (s.rrs r).handles = [])
    (taken : (s.rrs r).free.head?.all (fun w => decide (w ∉ (s.rrs r).all)) = false) :
    ((s.distribute r handle).rrs r).handles = [] := by
  rw [distribute]
  split
  · grind
  rename_i w free eq
  rw [eq] at taken
  have member : w ∈ (s.rrs r).all := by simpa using taken
  rw [handoff_handles, rrs_setRR]
  simp [member, empty]

end

end State

open State

/-- The master loses hold of nothing. -/
structure Kept (s : State) : Prop where
  queued : ∀ r h, some h ∈ (s.rrs r).handles → ∃ key, (key, r) ∈ s.handles
  callable : ∀ e ∈ s.callbacks, Callable s e

namespace Kept

variable {s s' : State} {r : Nat} {w : WorkerId}
variable {h : Handoff} {key : Key} {waiting : Waiting} {i : Nat} {message : ToMaster}

theorem initial : Kept State.initial where
  queued _ _ mem := absurd mem not_mem_nil
  callable _ mem := absurd mem not_mem_nil

section

variable (kept : Kept s)
include kept

theorem of_eq (rrs : s'.rrs = s.rrs) (handles : s'.handles = s.handles)
    (callable : ∀ e ∈ s'.callbacks, Callable s' e) : Kept s' := by
  refine ⟨?_, callable⟩
  rw [rrs, handles]
  exact kept.queued

theorem more (rrs : s'.rrs = s.rrs) (handles : s'.handles = s.handles)
    (callbacks : s'.callbacks = s.callbacks)
    (toWorker : s.toWorker ⊆ s'.toWorker) (toMaster : s.toMaster ⊆ s'.toMaster)
    (connected : ∀ w, (s.workers w).channel = .open → (s'.workers w).channel = .open) :
    Kept s' := by
  refine kept.of_eq rrs handles ?_
  rw [callbacks]
  exact fun e mem => (kept.callable e mem).mono toWorker toMaster connected

theorem log (events : List Event) : Kept (s.log events) :=
  kept.more rfl rfl rfl (List.Subset.refl _) (List.Subset.refl _) fun _ => id

theorem send (w : WorkerId) (message : Nat → ToWorker) : Kept (s.send w message) :=
  kept.more rfl rfl rfl (subset_append_left _ _) (List.Subset.refl _) fun _ => id

theorem setRR {rr : RoundRobinHandle}
    (queued : ∀ h, some h ∈ rr.handles → ∃ key, (key, r) ∈ s.handles) : Kept (s.setRR r rr) := by
  constructor
  · intro r' h mem
    by_cases here : r' = r
    · subst here
      rw [rrs_setRR] at mem
      exact queued h mem
    rw [rrs_setRR_of_ne _ here] at mem
    exact kept.queued r' h mem
  · exact fun e mem =>
      (kept.callable e mem).mono (List.Subset.refl _) (List.Subset.refl _) fun _ => id

theorem sendWith (connected : (s.workers w).channel = .open) (key : Key) (h h' : Handle) :
    Kept (s.sendWith w (fun seq => .newconn seq key h') { rr := r, worker := w, handle := h }) := by
  refine kept.of_eq rfl rfl ?_
  intro e mem
  obtain mem | mem := mem_append.mp mem
  · exact (kept.callable e mem).mono (subset_append_left _ _) (List.Subset.refl _) fun _ => id
  rw [mem_singleton] at mem
  subst mem
  exact .inl ⟨key, h', mem_append_right _ mem_cons_self, connected⟩

theorem handoff (connected : w ∈ (s.rrs r).all → ∀ h, (s.rrs r).handles.head? = some (some h) →
    (s.workers w).channel = .open) : Kept (s.handoff r w) := by
  by_cases member : w ∈ (s.rrs r).all
  · have queued := kept.queued r
    rw [State.handoff, if_pos member]
    rcases handles : (s.rrs r).handles with _ | ⟨_ | h, rest⟩
    · refine kept.setRR ?_
      simp
    · refine kept.setRR ?_
      intro h mem
      refine queued h ?_
      rw [handles]
      exact mem_cons_of_mem _ mem
    have taken : Kept (s.setRR r { s.rrs r with handles := rest }) := by
      refine kept.setRR ?_
      intro h mem
      refine queued h ?_
      rw [handles]
      exact mem_cons_of_mem _ mem
    exact taken.sendWith (connected member h (by rw [handles]; rfl)) _ _ _
  · simpa [State.handoff, member] using kept

theorem distribute {handle : Option Handle}
    (listed : ∀ h, handle = some h → ∃ key, (key, r) ∈ s.handles)
    (connected : ∀ h, ((s.rrs r).handles ++ [handle]).head? = some (some h) →
      ∀ w ∈ (s.rrs r).free.head?, (s.workers w).channel = .open) :
    Kept (s.distribute r handle) := by
  have queued (h : Handle) (mem : some h ∈ (s.rrs r).handles ++ [handle]) :
      ∃ key, (key, r) ∈ s.handles := by
    obtain mem | mem := mem_append.mp mem
    · exact kept.queued r h mem
    · exact listed h (mem_singleton.mp mem).symm
  rw [State.distribute]
  split
  · exact kept.setRR queued
  rename_i w free eq
  refine Kept.handoff (kept.setRR queued) ?_
  rw [rrs_setRR]
  intro _ h first
  exact connected h first w (by rw [eq]; rfl)

end

/-! ## Answers -/

theorem connected_of_deliverable {more : Bool} (deliverable : s.deliverable r w more = true)
    (member : w ∈ (s.rrs r).all) (some_ : (s.rrs r).handles ≠ [] ∨ more = true) :
    (s.workers w).channel = .open := by
  simp only [State.deliverable, member, connected, Bool.or_eq_true, Bool.and_eq_true,
    decide_eq_true_eq, not_true_eq_false, decide_false, Bool.false_eq_true, false_or,
    Bool.not_eq_true'] at deliverable
  obtain ⟨empty, no⟩ | connected := deliverable
  · grind
  · exact connected

theorem accepted (kept : Kept s) (deliverable : s.deliverable h.rr h.worker false = true) :
    Kept (s.answered h true) := by
  have logged := (kept.log [.replied h.worker h.handle true]).log [.closed h.handle]
  refine logged.handoff ?_
  intro member handle first
  refine connected_of_deliverable deliverable member (.inl ?_)
  intro empty
  simp [empty] at first

theorem refused (kept : Kept s) (inTable : s.inTable h.rr = true)
    (readyConnected : s.readyConnected h.rr = true) (deliverable : s.deliverable h.rr h.worker
      ((s.rrs h.rr).free.head?.all (· ∉ (s.rrs h.rr).all)) = true) :
    Kept (s.answered h false) := by
  have logged := kept.log [.replied h.worker h.handle false]
  have listed : ∃ key, (key, h.rr) ∈ s.handles := by
    obtain ⟨entry, mem, same⟩ := List.any_eq_true.mp inTable
    exact ⟨entry.1, of_decide_eq_true same ▸ mem⟩
  have connected : ∀ w ∈ (s.rrs h.rr).free.head?, (s.workers w).channel = .open := by
    intro w mem
    rw [State.readyConnected, mem_def.mp mem] at readyConnected
    exact of_decide_eq_true readyConnected
  have queued : Kept ((s.log [.replied h.worker h.handle false]).distribute h.rr
      (some h.handle)) := logged.distribute (fun _ _ => listed) (fun _ _ => connected)
  refine queued.handoff ?_
  intro member handle first
  rw [(SameTable.distribute _ _ _).all] at member
  rw [(SameTable.distribute _ _ _).workers]
  refine connected_of_deliverable deliverable member ?_
  by_contra neither
  rw [not_or, not_not, Bool.not_eq_true] at neither
  have empty := distribute_handles (s.log [.replied h.worker h.handle false]) h.rr (some h.handle)
    neither.1 neither.2
  simp [empty] at first

/-! ## The table -/

theorem unlist (kept : Kept s) (owner : ∀ e ∈ s.handles, e.1 = key → e.2 = r)
    (nothing : ∀ h, some h ∉ (s.rrs r).handles) :
    Kept { s with handles := s.handles.filter (·.1 ≠ key) } := by
  constructor
  · intro r' h mem
    obtain ⟨key', listed⟩ := kept.queued r' h mem
    refine ⟨key', ?_⟩
    rw [mem_filter, decide_eq_true_eq]
    refine ⟨listed, fun same => ?_⟩
    obtain rfl := owner _ listed same
    exact nothing h mem
  · exact fun e mem =>
      (kept.callable e mem).mono (List.Subset.refl _) (List.Subset.refl _) fun _ => id

theorem removeKey (kept : Kept s) (tabled : Tabled s) {entry : Key × Nat}
    (mem : entry ∈ s.handles) (closable : s.closable entry.2 w = true) :
    Kept (s.removeKey entry w).1 := by
  have queued := kept.queued entry.2
  have logged := kept.log ((shifted (s.rrs entry.2).handles).1.map .closed)
  have rest (listed : w ∈ (s.rrs entry.2).all) (last : (s.rrs entry.2).all.filter (· ≠ w) = []) :
      ∀ h, some h ∉ (shifted (s.rrs entry.2).handles).2 := by
    intro h mem
    have closable := closable
    simp only [State.closable, listed, last, ne_eq, not_true_eq_false, Bool.or_eq_true,
      decide_false, Bool.false_eq_true, false_or, List.all_eq_true] at closable
    have none_ := closable _ mem
    cases none_
  have removed := s.removed entry w
  generalize s.removeKey entry w = result at removed ⊢
  cases removed with
  | absent => exact kept
  | left => exact kept.setRR queued
  | closed listed last =>
    have shut : Kept ((s.log ((shifted (s.rrs entry.2).handles).1.map .closed)).setRR entry.2
        { s.rrs entry.2 with
          all := (s.rrs entry.2).all.filter (· ≠ w)
          free := (s.rrs entry.2).free.erase w
          handles := (shifted (s.rrs entry.2).handles).2
          socket := .closed }) := logged.setRR fun h mem => absurd mem (rest listed last h)
    refine shut.unlist (tabled.owner mem) ?_
    rw [rrs_setRR]
    exact rest listed last
  | threw listed last => exact logged.setRR fun h mem => absurd mem (rest listed last h)

/-! ## Requests -/

theorem done (waiting : List Waiting) : ∀ {s : State}, Kept s →
    (∀ w ∈ waiting, (s.rrs r).handles ≠ [] → (s.workers w.worker).channel = .open) →
    Kept (s.done r waiting) := by
  induction waiting with
  | nil =>
    intro s kept _
    exact kept
  | cons first waiting ih =>
    intro s kept connected
    rw [State.done]
    split
    · exact kept
    rename_i s' replied
    rw [reply_zero replied]
    refine ih ?_ ?_
    · refine (kept.send _ _).handoff ?_
      intro _ h head
      refine connected first mem_cons_self ?_
      intro empty
      have head' : (s.rrs r).handles.head? = some (some h) := head
      simp [empty] at head'
    intro w mem some_
    rw [(SameTable.handoff _ _ _).workers]
    refine connected w (mem_cons_of_mem first mem) ?_
    intro empty
    rw [handoff_handles] at some_
    have empty' : (((s.send first.worker fun _ => .reply first.seq 0 (s.rrs r).key).rrs
        r).handles) = [] := empty
    rw [empty', tail_nil, ite_self] at some_
    exact some_ rfl

theorem failures (errno : Int) (waiting : List Waiting) : ∀ {s : State}, Kept s →
    (∀ e ∈ s.handles, e.1 = (s.rrs r).key → e.2 = r) → (s.rrs r).handles = [] →
    Kept (s.failures r errno waiting) := by
  induction waiting with
  | nil =>
    intro s kept _ _
    exact kept
  | cons first waiting ih =>
    intro s kept owner empty
    rw [State.failures, State.reply]
    by_cases there : s.handles.any (·.1 = (s.rrs r).key) = true
    · rw [if_pos there]
      by_cases wrong : errno ≠ 0
      · simp only [if_pos wrong]
        have gone : Kept { s with handles := s.handles.filter (·.1 ≠ (s.rrs r).key) } := by
          refine kept.unlist owner ?_
          simp [empty]
        refine ih (gone.send _ _) ?_ empty
        exact fun e mem => owner e (mem_filter.mp mem).1
      · simpa [wrong] using ih (kept.send _ _) owner empty
    · simpa [there] using kept

theorem add (kept : Kept s) (connected : waiting.worker ∉ (s.rrs r).all → (s.rrs r).handles ≠ [] →
    (s.workers waiting.worker).channel = .open) : Kept (s.add r waiting) := by
  have queued := kept.queued r
  rw [State.add]
  split_ifs with listed
  · exact kept
  dsimp only
  split
  · refine Kept.done [waiting] (kept.setRR queued) ?_
    intro w mem
    rw [mem_singleton] at mem
    subst mem
    rw [rrs_setRR]
    exact connected listed
  · exact kept.setRR queued
  · exact kept.setRR queued

theorem create (kept : Kept s) (key : Key) : Kept { s.setRR s.count (.new key) with
    count := s.count + 1
    handles := s.handles ++ [(key, s.count)] } := by
  constructor
  · intro r h mem
    by_cases here : r = s.count
    · grind
    simp only [rrs_setRR_of_ne _ here] at mem
    obtain ⟨key', listed⟩ := kept.queued r h mem
    exact ⟨key', mem_append_left _ listed⟩
  · exact fun e mem =>
      (kept.callable e mem).mono (List.Subset.refl _) (List.Subset.refl _) fun _ => id

theorem queryServer (kept : Kept s)
    (leakless : s.leakless waiting.worker (.queryServer waiting.seq key) = true) :
    Kept (s.queryServer key waiting) := by
  rw [State.queryServer]
  rw [State.leakless] at leakless
  cases found : s.handles.find? (·.1 = key) with
  | some =>
    refine kept.add ?_
    intro absent some_
    rw [found] at leakless
    simpa [absent, some_, connected] using leakless
  | none =>
    refine (kept.create key).add ?_
    intro _ some_
    have empty : (({ s.setRR s.count (.new key) with
        count := s.count + 1
        handles := s.handles ++ [(key, s.count)] } : State).rrs (s.count + 1 - 1)).handles =
        [] := by
      simp [RoundRobinHandle.new]
    exact absurd empty some_

/-! ## Removal -/

theorem close (kept : Kept s) (tabled : Tabled s) (leakless : s.leakless w (.close key) = true) :
    Kept (s.close key w) := by
  rw [State.close]
  rw [State.leakless] at leakless
  cases found : s.handles.find? (·.1 = key) with
  | none => exact kept
  | some =>
    rw [found] at leakless
    exact kept.removeKey tabled (mem_of_find?_eq_some found) leakless

theorem removeHandles (keys : List Key) (nodup : keys.Nodup) (kept : Kept s) (tabled : Tabled s)
    (custody : Custody [] s) (closable : ∀ e ∈ s.handles, e.1 ∈ keys → s.closable e.2 w = true) :
    Kept (s.removeHandles w keys) := by
  have invariant := removeHandles_invariant (w := w) (P := fun keys s => keys.Nodup ∧ Kept s ∧
    Tabled s ∧ Custody [] s ∧ ∀ e ∈ s.handles, e.1 ∈ keys → s.closable e.2 w = true) ?_ ?_ keys
    ⟨nodup, kept, tabled, custody, closable⟩
  · exact invariant.choose_spec.2.1
  · intro key keys s ⟨nodup, kept, tabled, custody, closable⟩
    exact ⟨(nodup_cons.mp nodup).2, kept, tabled, custody, fun e mem later =>
      closable e mem (mem_cons_of_mem key later)⟩
  intro key keys s entry ⟨nodup, kept, tabled, custody, closable⟩ mem same
  rw [nodup_cons] at nodup
  obtain ⟨frame, subset, -⟩ := removeKey_frame s entry w
  refine ⟨nodup.2, kept.removeKey tabled mem (closable entry mem (same ▸ mem_cons_self)),
    tabled.removeKey mem w, custody.removeKey mem w, ?_⟩
  -- the others are as they were
  intro e mem' later
  have other : e.2 ≠ entry.2 := by
    intro eq
    have key' := (custody.table e (subset mem')).2.1
    rw [eq, (custody.table entry mem).2.1, same] at key'
    exact nodup.1 (key' ▸ later)
  rw [State.closable, frame e.2 other]
  exact closable e (subset mem') (mem_cons_of_mem key later)

/-! ## Messages to the master -/

theorem mem_eraseIdx {α : Type} {l : List α} {m m' : α} (found : l[i]? = some m)
    (mem : m' ∈ l) (other : m' ≠ m) : m' ∈ l.eraseIdx i := by
  have perm := perm_eraseIdx found
  obtain same | mem := mem_cons.mp (perm.mem_iff.mp mem)
  · exact absurd same other
  · exact mem

section

variable (kept : Kept s)
include kept

theorem arrive (arrived : s.toMaster[i]? = some (w, message)) {callbacks : List (Nat × Handoff)}
    (subset : callbacks ⊆ s.callbacks)
    (answered : ∀ e ∈ callbacks, ∀ accepted, message ≠ .ack e.1 accepted) :
    Kept { s with toMaster := s.toMaster.eraseIdx i, callbacks } := by
  refine kept.of_eq rfl rfl ?_
  intro e mem
  obtain ⟨key, h, inside, open_⟩ | ⟨accepted, inside⟩ := kept.callable e (subset mem)
  · exact .inl ⟨key, h, inside, open_⟩
  refine .inr ⟨accepted, mem_eraseIdx arrived inside ?_⟩
  intro same
  exact answered e mem accepted (Prod.mk.inj same).2.symm

theorem receive (tabled : Tabled s)
    (arrived : s.toMaster[i]? = some (w, message)) (leakless : s.leakless w message = true) :
    Kept ({ s with toMaster := s.toMaster.eraseIdx i }.receive w message) := by
  cases message with
  | queryServer =>
    have rest : Kept { s with toMaster := s.toMaster.eraseIdx i } :=
      kept.arrive arrived (List.Subset.refl _) fun _ _ _ => by simp
    exact rest.queryServer leakless
  | close key =>
    have rest : Kept { s with toMaster := s.toMaster.eraseIdx i } :=
      kept.arrive arrived (List.Subset.refl _) fun _ _ _ => by simp
    have tabled' : Tabled { s with toMaster := s.toMaster.eraseIdx i } := tabled.of_eq rfl rfl rfl
    exact rest.close tabled' leakless
  | ack seq accepted =>
    rw [State.receive]
    rw [State.leakless] at leakless
    cases found : s.callbacks.find? (·.1 = seq) with
    | none =>
      refine kept.arrive arrived (List.Subset.refl _) ?_
      intro e mem accepted' same
      have other := List.find?_eq_none.mp found e mem
      exact other (by simpa using (ToMaster.ack.inj same).1.symm)
    | some e =>
      have rest : Kept { s with
          toMaster := s.toMaster.eraseIdx i
          callbacks := s.callbacks.filter (·.1 ≠ seq) } := by
        refine kept.arrive arrived (filter_subset_self _) ?_
        intro e mem accepted' same
        have other := of_decide_eq_true (mem_filter.mp mem).2
        exact other (ToMaster.ack.inj same).1.symm
      rw [found] at leakless
      cases accepted with
      | true => exact rest.accepted leakless
      | false =>
        simp only [all_some, Bool.false_eq_true, if_false, Bool.and_eq_true]
          at leakless
        exact rest.refused leakless.1.1 leakless.1.2 leakless.2

/-! ## The workers -/

theorem post (w : WorkerId) (message : ToMaster) : Kept (s.post w message) := by
  refine kept.more rfl rfl rfl (List.Subset.refl _) (subset_append_left _ _) ?_
  intro w' open_
  simp only [State.post, State.setWorker]
  by_cases here : w' = w
  · subst here
    simpa using open_
  · grind

theorem setWorker {worker : Worker}
    (connected : (s.workers w).channel = .open → worker.channel = .open) :
    Kept (s.setWorker w worker) := by
  refine kept.more rfl rfl rfl (List.Subset.refl _) (List.Subset.refl _) ?_
  intro w' open_
  simp only [State.setWorker]
  by_cases here : w' = w
  · subst here
    simpa using connected open_
  · grind

theorem closeServer (w : WorkerId) (key : Key) : Kept (s.closeServer w key) :=
  (kept.post w _).setWorker id

theorem shut (quiet : s.inbound w = false ∨ (s.workers w).channel ≠ .open)
    (worker : Worker) : Kept (s.setWorker w worker) := by
  refine kept.of_eq rfl rfl ?_
  intro e mem
  obtain ⟨key, h, inside, open_⟩ | answer := kept.callable e mem
  · have other : e.2.worker ≠ w := by
      rintro rfl
      obtain quiet | shut := quiet
      · grind [inbound, ToWorker.newconn?]
      · exact shut open_
    refine .inl ⟨key, h, inside, ?_⟩
    simp only [State.setWorker, Function.update_of_ne other]
    exact open_
  · exact .inr answer

end

theorem closeServers (w : WorkerId) (keys : List Key) : ∀ {s : State}, Kept s →
    Kept (keys.foldl (fun s key => s.closeServer w key) s) ∧
      (keys.foldl (fun s key => s.closeServer w key) s).toWorker = s.toWorker := by
  induction keys with
  | nil => simp
  | cons key keys ih =>
    intro s kept
    exact ih (kept.closeServer w key)

theorem disconnect (kept : Kept s) (quiet : s.inbound w = false) : Kept (s.disconnect w) := by
  obtain ⟨closed, same⟩ := closeServers w (s.workers w).handles kept
  refine closed.shut (.inl ?_) _
  rw [inbound, same]
  exact quiet

theorem arriveInWorker (kept : Kept s) {message : ToWorker}
    (arrived : s.toWorker[i]? = some (w, message)) (other : message.newconn? = none) :
    Kept { s with toWorker := s.toWorker.eraseIdx i } := by
  refine kept.of_eq rfl rfl ?_
  intro e mem
  obtain ⟨key, h, inside, open_⟩ | answer := kept.callable e mem
  · refine .inl ⟨key, h, mem_eraseIdx arrived inside ?_, open_⟩
    intro same
    rw [← (Prod.mk.inj same).2] at other
    cases other
  · exact .inr answer

theorem receiveInWorker (kept : Kept s) {message : ToWorker}
    (arrived : s.toWorker[i]? = some (w, message))
    (quiet : ∀ seq, message = .disconnect seq → s.inbound w = false) :
    Kept ({ s with toWorker := s.toWorker.eraseIdx i }.receiveInWorker w message) := by
  cases message with
  | reply =>
    have rest := kept.arriveInWorker arrived rfl
    rw [State.receiveInWorker, State.listening]
    dsimp only
    split_ifs
    · exact rest.setWorker id
    · exact rest.setWorker id
    · exact rest
  | newconn seq key h =>
    have posted : Kept ({ s with toWorker := s.toWorker.eraseIdx i }.post w
        (.ack seq (decide (key ∈ (s.workers w).handles)))) := by
      refine kept.of_eq rfl rfl ?_
      intro e mem
      obtain ⟨key', h', inside, open_⟩ | ⟨accepted, inside⟩ := kept.callable e mem
      · by_cases same : (e.2.worker, ToWorker.newconn e.1 key' h') = (w, .newconn seq key h)
        · -- this is the message, and its answer is under way
          refine .inr ⟨decide (key ∈ (s.workers w).handles), mem_append_right _ ?_⟩
          obtain ⟨worker, message⟩ := Prod.mk.inj same
          simp [worker, (ToWorker.newconn.inj message).1]
        refine .inl ⟨key', h', mem_eraseIdx arrived inside same, ?_⟩
        simp only [State.post, State.setWorker]
        by_cases here : e.2.worker = w
        · simpa [here] using here ▸ open_
        rw [Function.update_of_ne here]
        exact open_
      · exact .inr ⟨accepted, mem_append_left _ inside⟩
    rw [State.receiveInWorker, State.onconnection]
    split_ifs
    · exact posted.log _
    · exact posted
  | disconnect seq =>
    have rest := kept.arriveInWorker arrived rfl
    refine rest.disconnect ?_
    have before := quiet seq rfl
    rw [inbound, List.any_eq_false] at before ⊢
    intro m mem
    exact before m (mem_of_mem_eraseIdx mem)

/-! ## Every run -/

/-- One step that leaks nothing keeps hold of all that waits. -/
theorem step (kept : Kept s) (inv : Inv s) (tabled : Tabled s) {action : Action}
    (keeps : s.keepsHold action = true) (stepped : s.step action = some s') : Kept s' := by
  cases transition_of_step stepped with
  | fork =>
    have opened : Kept (s.setWorker (s.ids + 1)
        { s.workers (s.ids + 1) with channel := .open }) := kept.setWorker fun _ => rfl
    exact opened.more rfl rfl rfl (List.Subset.refl _) (List.Subset.refl _) fun _ => id
  | onconnection r ready =>
    have arrives : Kept (s.arrive (s.accept r)) :=
      kept.more rfl rfl rfl (List.Subset.refl _) (List.Subset.refl _) fun _ => id
    refine arrives.distribute ?_ ?_
    · exact fun _ _ => ⟨_, tabled.bound r ready.1 (.inr ready.2)⟩
    intro _ _ w mem
    have first : (s.rrs r).free.head? = some w := mem
    rw [keepsHold, readyConnected, first] at keeps
    exact of_decide_eq_true keeps
  | onconnectionError =>
    refine kept.distribute ?_ ?_
    · simp
    intro h first w mem
    rw [keepsHold, Bool.or_eq_true, readyConnected, mem_def.mp mem] at keeps
    obtain empty | connected := keeps
    · simp [of_decide_eq_true empty] at first
    · exact of_decide_eq_true connected
  | listening r ready =>
    have early : ¬(s.rrs r).socket.Started := by
      rw [ready.2]
      rintro (impossible | impossible)
      · cases impossible
      · cases impossible
    refine Kept.done _ (kept.setRR (kept.queued r)) ?_
    intro w _ some_
    rw [rrs_setRR] at some_
    exact absurd (inv.custody.quiet r early) some_
  | error r errno ready =>
    have early : ¬(s.rrs r).socket.Started := by
      rw [ready.2]
      rintro (impossible | impossible)
      · cases impossible
      · cases impossible
    have listed := tabled.bound r ready.1 (.inl ready.2)
    refine Kept.failures errno _ (kept.setRR (kept.queued r)) ?_ ?_
    · rw [rrs_setRR]
      exact tabled.owner listed
    rw [rrs_setRR]
    exact inv.custody.quiet r early
  | toMaster i w message arrived =>
    rw [keepsHold, arrived] at keeps
    exact kept.receive tabled arrived keeps
  | toWorker i w message arrived =>
    refine kept.receiveInWorker arrived ?_
    rintro seq rfl
    rw [keepsHold, arrived] at keeps
    simpa using keeps
  | listen w =>
    have asked : Kept (s.setWorker w
        { s.workers w with callbacks := (s.workers w).callbacks ++ [(s.workers w).seq] }) :=
      kept.setWorker id
    exact asked.post w _
  | close w key => exact kept.closeServer w key
  | disconnect => exact kept.disconnect (by simpa [keepsHold] using keeps)
  | exit => exact kept.shut (.inl (by simpa [keepsHold] using keeps)) _
  | tellDisconnect w => exact kept.send w _
  | disconnected w shut =>
    have gone : Kept (s.setWorker w { s.workers w with channel := .gone }) :=
      kept.shut (.inr (by rw [shut]; simp)) _
    have custody := (inv.setWorker w { s.workers w with channel := .gone }).custody
    refine Kept.removeHandles _ tabled.keys gone (tabled.of_eq rfl rfl rfl) custody ?_
    intro e mem _
    rw [keepsHold, List.all_eq_true] at keeps
    exact keeps e mem

end Kept

/-- **No connection is leaked.**  In every run whose steps all keep hold of the connections: each
connection that the master has accepted is closed, or it is in the queue of a `RoundRobinHandle`
that is in the table, or a callback has it that will be called. -/
theorem no_leak_of_run {s : State}
    (run : Library.Run State.step (fun s action => s.keepsHold action = true) initial s)
    {h : Handle} (arrived : .connection h ∈ s.trace) :
    .closed h ∈ s.trace ∨ (∃ entry ∈ s.handles, some h ∈ (s.rrs entry.2).handles) ∨
      ∃ e ∈ s.callbacks, e.2.handle = h ∧ Callable s e := by
  have holds : Inv s ∧ Tabled s ∧ Kept s := by
    refine run.invariant (fun s => Inv s ∧ Tabled s ∧ Kept s) ⟨.initial, .initial, .initial⟩ ?_
    intro s s' action holds keeps stepped
    obtain ⟨inv, tabled, kept⟩ := holds
    exact ⟨inv.step stepped, tabled.step stepped, kept.step inv tabled keeps stepped⟩
  obtain ⟨⟨custody, -⟩, -, kept⟩ := holds
  have located := custody.located h
  have some_ : 0 < s.arrivals h := count_pos_iff.mpr arrived
  rw [count_nil] at located
  by_cases closed : .closed h ∈ s.trace
  · exact .inl closed
  by_cases queued : some h ∈ (s.rrs h.home).handles
  · obtain ⟨key, listed⟩ := kept.queued h.home h queued
    exact .inr (.inl ⟨_, listed, queued⟩)
  have notClosed : s.closings h = 0 := count_eq_zero.mpr closed
  have notQueued : s.queued h = 0 := count_eq_zero.mpr queued
  have outstanding : 0 < s.outstanding h := by omega
  obtain ⟨e, mem, same⟩ := List.mem_map.mp (count_pos_iff.mp outstanding)
  exact .inr (.inr ⟨e, mem, same, kept.callable e mem⟩)

/-- A worker sends a connection back, which goes to the next one. -/
theorem no_leak_sent_back : ∃ s : State, .connection ⟨0, 0⟩ ∈ s.trace ∧
    .replied 1 ⟨0, 0⟩ false ∈ s.trace ∧ .closed ⟨0, 0⟩ ∉ s.trace ∧
    (.closed ⟨0, 0⟩ ∈ s.trace ∨ (∃ entry ∈ s.handles, some ⟨0, 0⟩ ∈ (s.rrs entry.2).handles) ∨
      ∃ e ∈ s.callbacks, e.2.handle = ⟨0, 0⟩ ∧ Callable s e) := by
  obtain ⟨s, run, arrived, refused, open_⟩ := Library.Run.exists_of_exec State.step
    (fun s action => s.keepsHold action = true) initial
    (fun s => .connection ⟨0, 0⟩ ∈ s.trace ∧ .replied 1 ⟨0, 0⟩ false ∈ s.trace ∧
      .closed ⟨0, 0⟩ ∉ s.trace) (sentBack.take 14 ++ [.toMaster 0]) (by decide)
  exact ⟨s, arrived, refused, open_, no_leak_of_run run arrived⟩

/-- The only worker dies while a connection is on its way to it. -/
theorem leak_of_dying_worker :
    ¬∀ (s : State), Library.Run State.step (fun _ _ => True) initial s → ∀ h : Handle,
      .connection h ∈ s.trace →
        .closed h ∈ s.trace ∨ (∃ entry ∈ s.handles, some h ∈ (s.rrs entry.2).handles) ∨
          ∃ e ∈ s.callbacks, e.2.handle = h ∧ Callable s e := by
  intro claim
  obtain ⟨s, run, arrived, open_, table, toMaster, dead⟩ := Library.Run.exists_of_exec State.step
    (fun _ _ => True) initial
    (fun s => .connection ⟨0, 0⟩ ∈ s.trace ∧ .closed ⟨0, 0⟩ ∉ s.trace ∧ s.handles = [] ∧
      s.toMaster = [] ∧ s.callbacks = [(1, ⟨0, 1, ⟨0, 0⟩⟩)] ∧ (s.workers 1).channel = .gone)
    [.fork, .listen 1 "8080", .toMaster 0, .listening 0, .toWorker 0, .onconnection 0, .exit 1,
      .disconnected 1] (by decide)
  obtain closed | ⟨entry, mem, -⟩ | ⟨e, mem, -, callable⟩ := claim s run ⟨0, 0⟩ arrived
  · exact open_ closed
  · simp [table] at mem
  rw [dead.1, mem_singleton] at mem
  subst mem
  obtain ⟨key, h, -, connected⟩ | ⟨accepted, inside⟩ := callable
  · simp [dead.2] at connected
  · simp [toMaster] at inside

end IoJs.Cluster
