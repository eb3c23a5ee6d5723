import IoJs.Cluster.Handoff

/-!
# The ready queue of a round-robin handle

A worker is in one place at a time: in the ready queue `free`, or waiting for the socket, or with a
connection that it has not answered. `handoff` moves it from one of them to the next, and while it
does so, the worker is in its hands (`Ready`). So no connection waits while a worker is ready.
-/

namespace IoJs.Cluster

open List

namespace State

/-- How many hand-offs of a `RoundRobinHandle` a worker has not answered -/
def engaged (s : State) (r : Nat) (w : WorkerId) : Nat :=
  s.callbacks.countP fun e => e.2.rr = r && e.2.worker = w

/-- How often a worker waits for the socket -/
def awaiting (s : State) (r : Nat) (w : WorkerId) : Nat :=
  ((s.rrs r).waiting.map (·.worker)).count w

/-- A worker that asks for a server has nothing else to do with its `RoundRobinHandle`. -/
def unengaged (s : State) (r : Nat) (w : WorkerId) : Bool :=
  w ∈ (s.rrs r).all || s.engaged r w = 0 && s.awaiting r w = 0

/-- The messages that keep the ready queue in order -/
def orderly (s : State) (w : WorkerId) : ToMaster → Bool
  | .queryServer _ key => (s.handles.find? (·.1 = key)).all fun entry => s.unengaged entry.2 w
  | _ => true

/-- The actions that keep the ready queue in order -/
def keepsReady (s : State) : Action → Bool
  | .onconnectionError r => (s.rrs r).free ≠ []
  | .toMaster i => s.toMaster[i]?.all fun message => s.orderly message.1 message.2
  | _ => true

end State

/-- Every worker is in one place, or in hand. -/
structure Ready (hand : List (Nat × WorkerId)) (s : State) : Prop where
  once : ∀ r w, (s.rrs r).free.count w + s.awaiting r w + s.engaged r w + hand.count (r, w) ≤ 1
  member : ∀ r, ∀ w ∈ (s.rrs r).free, w ∈ (s.rrs r).all
  drained : ∀ r, (s.rrs r).free ≠ [] → (s.rrs r).handles = []
  whole : ∀ r, none ∉ (s.rrs r).handles

namespace Ready

open State

variable {hand hand' : List (Nat × WorkerId)} {s s' : State} {r : Nat} {w : WorkerId}
variable {rest : List WorkerId} {key : Key} {waiting : Waiting}

theorem initial : Ready [] State.initial where
  once _ _ := Nat.zero_le 1
  member _ _ mem := absurd mem not_mem_nil
  drained _ _ := rfl
  whole _ := not_mem_nil

theorem of_eq (ready : Ready hand s) (rrs : s'.rrs = s.rrs)
    (callbacks : s'.callbacks = s.callbacks) :
    Ready hand s' := by
  refine ⟨?_, ?_, ?_, ?_⟩
  · intro r w
    rw [rrs, awaiting, rrs, engaged, callbacks]
    exact ready.once r w
  · rw [rrs]
    exact ready.member
  · rw [rrs]
    exact ready.drained
  rw [rrs]
  exact ready.whole

theorem weaken (ready : Ready hand s) (less : ∀ place, hand'.count place ≤ hand.count place) :
    Ready hand' s := by
  refine ⟨?_, ready.member, ready.drained, ready.whole⟩
  intro r w
  have most := ready.once r w
  have fewer := less (r, w)
  omega

theorem setRR (ready : Ready hand s) {rr : RoundRobinHandle}
    (once : ∀ w, rr.free.count w + (rr.waiting.map (·.worker)).count w + s.engaged r w +
      hand'.count (r, w) ≤ 1)
    (others : ∀ r' w, r' ≠ r → hand'.count (r', w) ≤ hand.count (r', w))
    (member : ∀ w ∈ rr.free, w ∈ rr.all) (drained : rr.free ≠ [] → rr.handles = [])
    (whole : none ∉ rr.handles) : Ready hand' (s.setRR r rr) := by
  refine ⟨?_, ?_, ?_, ?_⟩
  · intro r' w
    have same : (s.setRR r rr).engaged r' w = s.engaged r' w := rfl
    rw [awaiting, same]
    by_cases here : r' = r
    · subst here
      rw [rrs_setRR]
      exact once w
    rw [rrs_setRR_of_ne _ here]
    have before := ready.once r' w
    rw [awaiting] at before
    have less := others r' w here
    omega
  · intro r'
    by_cases here : r' = r
    · subst here
      rw [rrs_setRR]
      exact member
    rw [rrs_setRR_of_ne _ here]
    exact ready.member r'
  · intro r'
    by_cases here : r' = r
    · subst here
      rw [rrs_setRR]
      exact drained
    rw [rrs_setRR_of_ne _ here]
    exact ready.drained r'
  intro r'
  by_cases here : r' = r
  · subst here
    rw [rrs_setRR]
    exact whole
  rw [rrs_setRR_of_ne _ here]
  exact ready.whole r'

theorem sendWith (ready : Ready ((r, w) :: hand) s) (message : Nat → ToWorker) (h : Handle) :
    Ready hand (s.sendWith w message { rr := r, worker := w, handle := h }) where
  once r' w' := by
    have before := ready.once r' w'
    have more : (s.sendWith w message { rr := r, worker := w, handle := h }).engaged r' w' =
        s.engaged r' w' + [(r, w)].count (r', w') := by
      simp only [engaged, State.sendWith, State.send, countP_append, countP_cons,
        countP_nil, count_cons, count_nil, Bool.and_eq_true, decide_eq_true_eq,
        beq_iff_eq, Prod.mk.injEq]
    have same : (s.sendWith w message { rr := r, worker := w, handle := h }).rrs = s.rrs := rfl
    rw [← singleton_append, count_append] at before
    rw [more, awaiting, same]
    rw [awaiting] at before
    omega
  member := ready.member
  drained := ready.drained
  whole := ready.whole

theorem handoff (ready : Ready ((r, w) :: hand) s) : Ready hand (s.handoff r w) := by
  have counts (w' : WorkerId) : ((r, w) :: hand).count (r, w') =
      [w].count w' + hand.count (r, w') := by grind
  have less (r' : Nat) (w' : WorkerId) : hand.count (r', w') ≤ ((r, w) :: hand).count (r', w') :=
    count_le_count_cons
  have before (w' : WorkerId) := ready.once r w'
  simp only [counts, awaiting] at before
  by_cases member : w ∈ (s.rrs r).all
  · rcases handles : (s.rrs r).handles with _ | ⟨_ | h, rest⟩
    · have result : s.handoff r w = s.setRR r { s.rrs r with free := (s.rrs r).free ++ [w] } := by
        simp [State.handoff, member, handles]
      rw [result]
      refine ready.setRR ?_ (fun r' w' _ => less r' w') ?_ (fun _ => handles) (ready.whole r)
      · intro w'
        have most := before w'
        simp only [count_append]
        omega
      intro w' mem
      obtain mem | mem := mem_append.mp mem
      · exact ready.member r w' mem
      rw [mem_singleton.mp mem]
      exact member
    · have no := ready.whole r
      rw [handles] at no
      exact absurd mem_cons_self no
    have result : s.handoff r w = (s.setRR r { s.rrs r with handles := rest }).sendWith w
        (fun seq => .newconn seq (s.rrs r).key h) { rr := r, worker := w, handle := h } := by
      simp only [State.handoff, member, handles, if_true]
    rw [result]
    refine Ready.sendWith ?_ _ h
    have noneFree : (s.rrs r).free = [] := by
      by_contra some_
      have empty := ready.drained r some_
      simp [handles] at empty
    refine ready.setRR (ready.once r) (fun _ _ _ => Nat.le_refl _) (ready.member r) ?_ ?_
    · exact fun some_ => absurd noneFree some_
    have no := ready.whole r
    rw [handles] at no
    exact fun mem => no (mem_cons_of_mem _ mem)
  have result : s.handoff r w = s := if_neg member
  rw [result]
  exact ready.weaken fun place => less place.1 place.2

theorem setRR_setRR (s : State) (r : Nat) (rr rr' : RoundRobinHandle) :
    (s.setRR r rr).setRR r rr' = s.setRR r rr' := by
  simp [State.setRR]

theorem distribute_free {h : Handle} (free : (s.rrs r).free = w :: rest)
    (member : w ∈ (s.rrs r).all) (empty : (s.rrs r).handles = []) :
    s.distribute r (some h) = (s.setRR r { s.rrs r with handles := [], free := rest }).sendWith w
      (fun seq => .newconn seq (s.rrs r).key h) { rr := r, worker := w, handle := h } := by
  simp [State.distribute, free, empty, State.handoff, rrs_setRR, member, setRR_setRR]

theorem distribute_error (free : (s.rrs r).free = w :: rest)
    (member : w ∈ (s.rrs r).all) (empty : (s.rrs r).handles = []) :
    s.distribute r none = s.setRR r { s.rrs r with handles := [], free := rest ++ [w] } := by
  simp [State.distribute, free, empty, State.handoff, rrs_setRR, member, setRR_setRR]

theorem distribute (ready : Ready hand s) (r : Nat) (h : Handle) :
    Ready hand (s.distribute r (some h)) := by
  rcases free : (s.rrs r).free with _ | ⟨w, rest⟩
  · have result : s.distribute r (some h) =
        s.setRR r { s.rrs r with handles := (s.rrs r).handles ++ [some h] } := by
      simp only [State.distribute, free]
    rw [result]
    refine ready.setRR (ready.once r) (fun _ _ _ => Nat.le_refl _) (ready.member r) ?_ ?_
    · exact fun some_ => absurd free some_
    rw [mem_append, not_or]
    exact ⟨ready.whole r, by simp⟩
  have some_ : (s.rrs r).free ≠ [] := by simp [free]
  have member : ∀ w' ∈ w :: rest, w' ∈ (s.rrs r).all := free ▸ ready.member r
  rw [distribute_free free (member w mem_cons_self) (ready.drained r some_)]
  refine Ready.sendWith ?_ _ h
  refine ready.setRR ?_ ?_ ?_ (fun _ => rfl) not_mem_nil
  · intro w'
    have most := ready.once r w'
    rw [free, awaiting] at most
    simp only [count_cons, beq_iff_eq, Prod.mk.injEq, true_and] at most ⊢
    omega
  · intro r' w' other
    have apart : (r, w) ≠ (r', w') := fun same => other (Prod.mk.inj same).1.symm
    exact Nat.le_of_eq (count_cons_of_ne apart)
  · exact fun w' mem => member w' (mem_cons_of_mem w mem)

theorem distributeError (ready : Ready hand s) (some_ : (s.rrs r).free ≠ []) :
    Ready hand (s.distribute r none) := by
  obtain ⟨w, rest, free⟩ := exists_cons_of_ne_nil some_
  have member : ∀ w' ∈ w :: rest, w' ∈ (s.rrs r).all := free ▸ ready.member r
  rw [distribute_error free (member w mem_cons_self) (ready.drained r some_)]
  refine ready.setRR ?_ (fun _ _ _ => Nat.le_refl _) ?_ (fun _ => rfl) not_mem_nil
  · intro w'
    have most := ready.once r w'
    rw [free, awaiting] at most
    simp only [count_cons, count_append, count_nil] at most ⊢
    omega
  · grind

/-! ## Answers -/

theorem takeBack (ready : Ready hand s) {e : Nat × Handoff} {callbacks : List (Nat × Handoff)}
    (perm : s.callbacks.Perm (e :: callbacks)) :
    Ready ((e.2.rr, e.2.worker) :: hand) { s with callbacks } where
  once r w := by
    have before := ready.once r w
    have count : s.engaged r w = callbacks.countP (fun e => e.2.rr = r && e.2.worker = w) +
        [(e.2.rr, e.2.worker)].count (r, w) := by
      rw [engaged, perm.countP_eq]
      simp only [countP_cons, count_cons, count_nil, Bool.and_eq_true,
        decide_eq_true_eq, beq_iff_eq, Prod.mk.injEq, Nat.zero_add]
    have fewer : State.engaged { s with callbacks } r w =
        callbacks.countP (fun e => e.2.rr = r && e.2.worker = w) := rfl
    have same : State.awaiting { s with callbacks } r w = s.awaiting r w := rfl
    have same' : State.rrs { s with callbacks } = s.rrs := rfl
    rw [← singleton_append, count_append, fewer, same, same']
    omega
  member := ready.member
  drained := ready.drained
  whole := ready.whole

theorem answered {h : Handoff} (ready : Ready ((h.rr, h.worker) :: hand) s) (accepted : Bool) :
    Ready hand (s.answered h accepted) := by
  have logged : Ready ((h.rr, h.worker) :: hand) (s.log [.replied h.worker h.handle accepted]) :=
    ready.of_eq rfl rfl
  cases accepted with
  | true =>
    have closed : Ready ((h.rr, h.worker) :: hand)
        ((s.log [.replied h.worker h.handle true]).log [.closed h.handle]) :=
      logged.of_eq rfl rfl
    exact closed.handoff
  | false => exact (logged.distribute h.rr h.handle).handoff

/-! ## Requests -/

theorem reply (ready : Ready hand s) {errno : Int}
    (replied : s.reply key waiting errno = some s') : Ready hand s' := by
  rw [State.reply] at replied
  split_ifs at replied
  all_goals
    cases replied
    exact ready.of_eq rfl rfl

theorem done (waiting : List Waiting) :
    ∀ {s : State}, Ready (waiting.map (fun w => (r, w.worker)) ++ hand) s →
      Ready hand (s.done r waiting) := by
  induction waiting with
  | nil =>
    intro s ready
    exact ready
  | cons first waiting ih =>
    intro s ready
    rw [State.done]
    split
    · refine ready.weaken fun place => ?_
      rw [count_append]
      exact Nat.le_add_left _ _
    rename_i replied
    exact ih (ready.reply replied).handoff

theorem failures (waiting : List Waiting) (errno : Int) :
    ∀ {s : State}, Ready hand s → Ready hand (s.failures r errno waiting) := by
  induction waiting with
  | nil =>
    intro s ready
    exact ready
  | cons first waiting ih =>
    intro s ready
    rw [State.failures]
    split
    · exact ready
    rename_i replied
    exact ih (ready.reply replied)

theorem settle (ready : Ready hand s) (r : Nat) (socket : Socket) :
    Ready ((s.rrs r).waiting.map (fun w => (r, w.worker)) ++ hand)
      (s.setRR r { s.rrs r with socket, waiting := [] }) := by
  refine ready.setRR ?_ ?_ (ready.member r) (ready.drained r) (ready.whole r)
  · intro w
    have most := ready.once r w
    have count : ((s.rrs r).waiting.map (fun w => (r, w.worker))).count (r, w) =
        ((s.rrs r).waiting.map (·.worker)).count w := by
      rw [List.count, List.count, countP_map, countP_map]
      congr 1
      funext waiting
      simp
    rw [awaiting] at most
    rw [count_append, count]
    simp only [map_nil, count_nil]
    omega
  intro r' w other
  have none_ : ((s.rrs r).waiting.map (fun w => (r, w.worker))).count (r', w) = 0 := by
    rw [count_eq_zero]
    intro mem
    obtain ⟨waiting, -, same⟩ := List.mem_map.mp mem
    exact other (Prod.mk.inj same).1.symm
  simp [none_]

theorem enlist (ready : Ready [] s) (absent : waiting.worker ∉ (s.rrs r).all)
    (free : s.engaged r waiting.worker = 0 ∧ s.awaiting r waiting.worker = 0) :
    Ready [] (s.setRR r
        { s.rrs r with
          all := (s.rrs r).all ++ [waiting.worker]
          waiting := (s.rrs r).waiting ++ [waiting] }) ∧
      Ready [(r, waiting.worker)]
        (s.setRR r { s.rrs r with all := (s.rrs r).all ++ [waiting.worker] }) := by
  have notFree : (s.rrs r).free.count waiting.worker = 0 :=
    count_eq_zero.mpr fun mem => absent (ready.member r _ mem)
  have listed : ∀ w ∈ (s.rrs r).free, w ∈ (s.rrs r).all ++ [waiting.worker] := fun w mem =>
    mem_append_left _ (ready.member r w mem)
  constructor
  · refine ready.setRR ?_ (fun _ _ _ => Nat.le_refl _) listed (ready.drained r) (ready.whole r)
    intro w
    have most := ready.once r w
    rw [awaiting] at most free
    simp only [map_append, map_cons, map_nil, count_append]
    by_cases same : waiting.worker = w
    · subst same
      have one : [waiting.worker].count waiting.worker = 1 := count_singleton_self
      rw [one, count_nil]
      omega
    rw [count_cons_of_ne same, count_nil]
    exact most
  refine ready.setRR ?_ ?_ listed (ready.drained r) (ready.whole r)
  · intro w
    have most := ready.once r w
    rw [awaiting] at most free
    by_cases same : waiting.worker = w
    · subst same
      rw [count_singleton_self]
      dsimp only
      omega
    have apart : (r, waiting.worker) ≠ (r, w) := fun eq => same (Prod.mk.inj eq).2
    rw [count_cons_of_ne apart]
    exact most
  intro r' w other
  have apart : (r, waiting.worker) ≠ (r', w) := fun eq => other (Prod.mk.inj eq).1.symm
  exact Nat.le_of_eq (count_cons_of_ne apart)

theorem add (ready : Ready [] s)
    (unengaged : s.unengaged r waiting.worker = true) : Ready [] (s.add r waiting) := by
  rw [State.add]
  split_ifs with listed
  · exact ready
  have free : s.engaged r waiting.worker = 0 ∧ s.awaiting r waiting.worker = 0 := by
    simpa [State.unengaged, listed] using unengaged
  obtain ⟨waits, inHand⟩ := ready.enlist listed free
  dsimp only
  split
  · exact Ready.done [waiting] inHand
  · exact inHand.weaken fun place => Nat.zero_le _
  · exact waits

theorem create (ready : Ready [] s) (key : Key) : Ready [] { s.setRR s.count (.new key) with
    count := s.count + 1
    handles := s.handles ++ [(key, s.count)] } := by
  have made : Ready [] (s.setRR s.count (.new key)) := by
    refine ready.setRR ?_ (fun _ _ _ => Nat.le_refl _) ?_ (fun _ => rfl) not_mem_nil
    · intro w
      have most := ready.once s.count w
      simp only [RoundRobinHandle.new, map_nil, count_nil] at most ⊢
      omega
    intro w mem
    exact absurd mem not_mem_nil
  exact made.of_eq rfl rfl

theorem engaged_unused {hand : List Handle} (custody : Custody hand s)
    (unused : s.count ≤ r) (w : WorkerId) : s.engaged r w = 0 := by
  rw [engaged, countP_eq_zero]
  intro e mem
  obtain ⟨-, started⟩ := custody.callbacks e mem
  have other : e.2.rr ≠ r := by
    intro same
    have small := custody.made (same ▸ started)
    omega
  simp [other]

theorem queryServer (ready : Ready [] s) (custody : Custody [] s)
    (orderly : s.orderly waiting.worker (.queryServer waiting.seq key) = true) :
    Ready [] (s.queryServer key waiting) := by
  rw [State.queryServer]
  rw [State.orderly] at orderly
  cases found : s.handles.find? (·.1 = key) with
  | some =>
    rw [found] at orderly
    exact ready.add orderly
  | none =>
    refine (ready.create key).add ?_
    have engaged : s.engaged s.count waiting.worker = 0 := engaged_unused custody (Nat.le_refl _) _
    simp only [State.unengaged, Bool.or_eq_true, Bool.and_eq_true, decide_eq_true_eq]
    refine .inr ⟨engaged, ?_⟩
    simp [awaiting, RoundRobinHandle.new]

/-! ## Removal -/

theorem mem_of_mem_rest {handles : List (Option Handle)} {h : Option Handle}
    (mem : h ∈ (shifted handles).2) : h ∈ handles := by
  induction handles with
  | nil => exact mem
  | cons first handles ih =>
    cases first with
    | none => exact mem_cons_of_mem _ mem
    | some h' => exact mem_cons_of_mem _ (ih mem)

theorem removeKey (ready : Ready hand s) (entry : Key × Nat) (w : WorkerId) :
    Ready hand (s.removeKey entry w).1 := by
  have member (w' : WorkerId) (mem : w' ∈ (s.rrs entry.2).free.erase w) :
      w' ∈ (s.rrs entry.2).all.filter (· ≠ w) := by
    have nodup : (s.rrs entry.2).free.Nodup := by
      rw [nodup_iff_count_le_one]
      intro w'
      have most := ready.once entry.2 w'
      omega
    obtain ⟨other, mem⟩ := (List.Nodup.mem_erase_iff nodup).mp mem
    simpa using ⟨ready.member entry.2 w' mem, other⟩
  have once (w' : WorkerId) : ((s.rrs entry.2).free.erase w).count w' +
      ((s.rrs entry.2).waiting.map (·.worker)).count w' + s.engaged entry.2 w' +
      hand.count (entry.2, w') ≤ 1 := by
    have most := ready.once entry.2 w'
    have less : ((s.rrs entry.2).free.erase w).count w' ≤ (s.rrs entry.2).free.count w' :=
      erase_sublist.count_le w'
    rw [awaiting] at most
    omega
  have kept : (s.rrs entry.2).free.erase w ≠ [] → (s.rrs entry.2).handles = [] := by
    intro some_
    refine ready.drained entry.2 fun nobody => some_ ?_
    rw [nobody]
    rfl
  have logged (events : List Event) : Ready hand (s.log events) := ready.of_eq rfl rfl
  -- when the last worker leaves, nobody is ready
  have nobody (last : (s.rrs entry.2).all.filter (· ≠ w) = []) :
    (s.rrs entry.2).free.erase w = [] := by
    rw [eq_nil_iff_forall_not_mem]
    intro w' mem
    have left := member w' mem
    rw [last] at left
    exact not_mem_nil left
  have whole : none ∉ (shifted (s.rrs entry.2).handles).2 := fun mem =>
    ready.whole entry.2 (mem_of_mem_rest mem)
  have removed := s.removed entry w
  generalize s.removeKey entry w = result at removed ⊢
  cases removed with
  | absent => exact ready
  | left => exact ready.setRR once (fun _ _ _ => Nat.le_refl _) member kept (ready.whole entry.2)
  | closed listed last =>
    exact of_eq (Ready.setRR (logged _) once (fun _ _ _ => Nat.le_refl _) member
      (fun some_ => absurd (nobody last) some_) whole) rfl rfl
  | threw listed last =>
    exact (logged _).setRR once (fun _ _ _ => Nat.le_refl _) member
      (fun some_ => absurd (nobody last) some_) whole

theorem close (ready : Ready hand s) (key : Key) (w : WorkerId) : Ready hand (s.close key w) := by
  rw [State.close]
  split
  · exact ready.removeKey _ w
  · exact ready

theorem removeHandles (ready : Ready hand s) (w : WorkerId) (keys : List Key) :
    Ready hand (s.removeHandles w keys) := by
  have invariant := removeHandles_invariant (w := w) (P := fun _ => Ready hand) id
    (fun ready _ _ => ready.removeKey _ w) keys ready
  exact invariant.choose_spec

/-! ## Every run -/

theorem receive (ready : Ready [] s) (inv : Inv s) {i : Nat} {message : ToMaster}
    (arrived : s.toMaster[i]? = some (w, message)) (orderly : s.orderly w message = true) :
    Ready [] ({ s with toMaster := s.toMaster.eraseIdx i }.receive w message) := by
  have rest : Ready [] { s with toMaster := s.toMaster.eraseIdx i } := ready.of_eq rfl rfl
  cases message with
  | queryServer =>
    have custody : Custody [] { s with toMaster := s.toMaster.eraseIdx i } :=
      inv.custody.of_eq rfl rfl (List.Subset.refl _) rfl rfl rfl
    exact rest.queryServer custody orderly
  | close key => exact rest.close key w
  | ack seq accepted =>
    rw [State.receive]
    cases found : s.callbacks.find? (·.1 = seq) with
    | none => exact rest
    | some e => exact (rest.takeBack (perm_of_find inv.posted.seqs found)).answered accepted

theorem receiveInWorker (ready : Ready hand s) (w : WorkerId) (message : ToWorker) :
    Ready hand (s.receiveInWorker w message) := by
  obtain ⟨rrs, -, -, callbacks⟩ := s.receiveInWorker_frame w message
  exact ready.of_eq rrs callbacks

/-- One step keeps every worker in one place, if it keeps the ready queue in order. -/
theorem step (ready : Ready [] s) (inv : Inv s) {action : Action}
    (keeps : s.keepsReady action = true) (stepped : s.step action = some s') : Ready [] s' := by
  cases transition_of_step stepped with
  | fork | listen | close | exit | tellDisconnect =>
    exact ready.of_eq rfl rfl
  | onconnection r made =>
    have arrives : Ready [] (s.arrive (s.accept r)) := ready.of_eq rfl rfl
    exact arrives.distribute r _
  | onconnectionError => exact ready.distributeError (of_decide_eq_true keeps)
  | listening r made => exact Ready.done _ (ready.settle r .listening)
  | error r errno made =>
    exact Ready.failures _ errno ((ready.settle r .failed).weaken fun place => Nat.zero_le _)
  | toMaster i w message arrived =>
    rw [State.keepsReady, arrived] at keeps
    exact ready.receive inv arrived keeps
  | toWorker i w message =>
    have rest : Ready [] { s with toWorker := s.toWorker.eraseIdx i } := ready.of_eq rfl rfl
    exact rest.receiveInWorker w message
  | disconnect w => exact ready.receiveInWorker w (.disconnect 0)
  | disconnected w shut =>
    have gone : Ready [] (s.setWorker w { s.workers w with channel := .gone }) :=
      ready.of_eq rfl rfl
    exact gone.removeHandles w _

end Ready

open State

/-- **The ready queue.**  In every run in which a worker that asks for a server has no connection of
its `RoundRobinHandle` to answer, and in which each error of `accept` finds a worker ready: a worker
is at most once in `free`, only if it is in `all`, and only if it has no connection to answer; and
no connection waits while a worker is ready. -/
theorem free_list_of_run {s : State}
    (run : Library.Run step (fun s action => s.keepsReady action = true) initial s) (r : Nat) :
    (s.rrs r).free.Nodup ∧ (∀ w ∈ (s.rrs r).free, w ∈ (s.rrs r).all ∧
        ∀ e ∈ s.callbacks, ¬(e.2.rr = r ∧ e.2.worker = w)) ∧
      ((s.rrs r).free ≠ [] → (s.rrs r).handles = []) := by
  have holds : Inv s ∧ Ready [] s := by
    refine run.invariant (fun s => Inv s ∧ Ready [] s) ⟨.initial, .initial⟩ ?_
    intro s s' action holds keeps stepped
    exact ⟨holds.1.step stepped, holds.2.step holds.1 keeps stepped⟩
  have ready := holds.2
  refine ⟨?_, ?_, ready.drained r⟩
  · rw [nodup_iff_count_le_one]
    intro w
    have most := ready.once r w
    omega
  intro w mem
  refine ⟨ready.member r w mem, ?_⟩
  have most := ready.once r w
  have here : 0 < (s.rrs r).free.count w := count_pos_iff.mpr mem
  have none_ : s.engaged r w = 0 := by omega
  rw [engaged, countP_eq_zero] at none_
  intro e mem
  simpa using none_ e mem

/-- Two workers take turns. -/
theorem free_list_of_two : ∃ s : State, (s.rrs 0).free = [2, 1] ∧ (s.rrs 0).free.Nodup ∧
    (∀ w ∈ (s.rrs 0).free, w ∈ (s.rrs 0).all ∧
      ∀ e ∈ s.callbacks, ¬(e.2.rr = 0 ∧ e.2.worker = w)) ∧
    ((s.rrs 0).free ≠ [] → (s.rrs 0).handles = []) := by
  obtain ⟨s, run, free⟩ := Library.Run.exists_of_exec step
    (fun s action => s.keepsReady action = true) initial (fun s => (s.rrs 0).free = [2, 1])
    [.fork, .fork, .listen 1 "8080", .listen 2 "8080", .toMaster 0, .toMaster 0, .listening 0,
      .toWorker 0, .toWorker 0, .onconnection 0, .toWorker 0, .toMaster 0] (by decide)
  exact ⟨s, free, free_list_of_run run 0⟩

/-- A worker closes its server and listens again while a connection is on its way to it: it is put
into the ready queue when it is added, and again when it sends the connection back. -/
theorem listening_again_ready_twice :
    ¬∀ s : State, Library.Run step (fun _ _ => True) initial s → ∀ r, (s.rrs r).free.Nodup ∧
        (∀ w ∈ (s.rrs r).free, w ∈ (s.rrs r).all ∧
          ∀ e ∈ s.callbacks, ¬(e.2.rr = r ∧ e.2.worker = w)) ∧
        ((s.rrs r).free ≠ [] → (s.rrs r).handles = []) := by
  intro claim
  obtain ⟨s, run, free⟩ := Library.Run.exists_of_exec step (fun _ _ => True) initial
    (fun s => (s.rrs 0).free = [1, 1])
    [.fork, .fork, .listen 1 "8080", .listen 2 "8080", .toMaster 0, .toMaster 0, .listening 0,
      .toWorker 0, .toWorker 0, .onconnection 0, .close 1 "8080", .listen 1 "8080", .toWorker 0,
      .toMaster 0, .toMaster 0, .toMaster 0] (by decide)
  have nodup := (claim s run 0).1
  simp [free] at nodup

end IoJs.Cluster
