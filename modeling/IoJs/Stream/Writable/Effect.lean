import IoJs.Library.Runs
import IoJs.Stream.Writable.Queue
import IoJs.Stream.Writable.Transition

/-!
# What a step does to the stored chunks

Most transitions only run callbacks and listeners, or set flags. `Keeps` says
what they leave alone: the lengths, `writing`, `corked`, the outstanding
hand-overs and the queue. `Effect` lists the others.
-/

namespace IoJs.Stream.Writable

open IoJs.Library List
open Config (queueView)

variable {Obj : Type} {c b c' : Config Obj} {a : Action Obj} {entry : Nat} {rest : List (Frame Obj)}
  {env : Environment} {frame : Frame Obj} {clear : Clear} {requests : List (Request Obj)}
  {request : Request Obj}

/-! ## Transitions that leave the stored chunks alone -/

/-- The state less its flags and `pendingcb`. -/
def WritableState.core (state : WritableState) : WritableState :=
  { state with
    needDrain := false
    ending := false
    ended := false
    finished := false
    sync := false
    pendingcb := 0
    prefinished := false
    errorEmitted := false }

/-- Nothing that is stored changes; `finished` is not cleared, `needDrain` and `sync` are
not set. -/
structure Keeps (c c' : Config Obj) : Prop where
  core : c'.state.core = c.state.core
  outstanding : c'.outstanding = c.outstanding
  view : c'.queueView = c.queueView
  finished : c.state.finished = true → c'.state.finished = true
  needDrain : c'.state.needDrain = true → c.state.needDrain = true
  sync : c'.state.sync = true → c.state.sync = true

namespace Keeps

variable {c c' c'' : Config Obj}

theorem refl (c : Config Obj) : Keeps c c := ⟨rfl, rfl, rfl, id, id, id⟩

theorem trans (first : Keeps c c') (second : Keeps c' c'') : Keeps c c'' where
  core := second.core.trans first.core
  outstanding := second.outstanding.trans first.outstanding
  view := second.view.trans first.view
  finished := second.finished ∘ first.finished
  needDrain := first.needDrain ∘ second.needDrain
  sync := first.sync ∘ second.sync

section

variable (kept : Keeps c c')
include kept

theorem writing : c'.state.writing = c.state.writing := by
  simpa [WritableState.core] using congrArg WritableState.writing kept.core

theorem corked : c'.state.corked = c.state.corked := by
  simpa [WritableState.core] using congrArg WritableState.corked kept.core

theorem length : c'.state.length = c.state.length := by
  simpa [WritableState.core] using congrArg WritableState.length kept.core

theorem writelen : c'.state.writelen = c.state.writelen := by
  simpa [WritableState.core] using congrArg WritableState.writelen kept.core

theorem objectMode : c'.state.objectMode = c.state.objectMode := by
  simpa [WritableState.core] using congrArg WritableState.objectMode kept.core

end

theorem set (c : Config Obj) {f : WritableState → WritableState}
    (core : (f c.state).core = c.state.core)
    (finished : c.state.finished = true → (f c.state).finished = true)
    (needDrain : (f c.state).needDrain = true → c.state.needDrain = true)
    (sync : (f c.state).sync = true → c.state.sync = true) :
    Keeps c (c.set f) where
  core := core
  outstanding := rfl
  view := by
    have first := congrArg WritableState.bufferedRequest core
    have last := congrArg WritableState.lastBufferedRequest core
    have processing := congrArg WritableState.bufferProcessing core
    simp only [WritableState.core] at first last processing
    simp only [queueView, Config.set_state, Config.set_heap, Config.set_stack,
      Config.set_trace, first, last, processing]
  finished := finished
  needDrain := needDrain
  sync := sync

theorem push (c : Config Obj) (frame : Frame Obj) (other : frame.clear? = none) :
    Keeps c (c.push frame) :=
  ⟨rfl, rfl, by simp [queueView, other], id, id, id⟩

theorem pop {frame : Frame Obj} {rest : List (Frame Obj)} (top : c.stack = frame :: rest)
    (other : frame.clear? = none) : Keeps c { c with stack := rest } :=
  ⟨rfl, rfl, by simp [queueView, top, other], id, id, id⟩

section

variable (c : Config Obj)

theorem ticks (ticks : List Tick) : Keeps c { c with ticks := ticks } := ⟨rfl, rfl, rfl, id, id, id⟩

theorem onceFinish (labels : List Nat) : Keeps c { c with onceFinish := labels } :=
  ⟨rfl, rfl, rfl, id, id, id⟩

theorem nextTick (tick : Tick) : Keeps c (c.nextTick tick) := ticks c _

theorem log {event : Event Obj} (notAccepted : accepted [event] = [])
    (notHanded : handed [event] = []) : Keeps c (c.log event) where
  core := rfl
  outstanding := rfl
  view := by
    have taken : accepted (c.trace ++ [event]) = accepted c.trace := by
      simp [accepted_append, notAccepted]
    have given : handed (c.trace ++ [event]) = handed c.trace := by simp [handed_append, notHanded]
    simp only [queueView, Config.log_state, Config.log_heap, Config.log_stack,
      Config.log_trace, taken, given]
  finished := id
  needDrain := id
  sync := id

theorem emit (event : Emission) : Keeps c (c.emit event) := (log c rfl rfl).trans (push _ _ rfl)

theorem refuse (er : StreamError) : Keeps c (refuse c er) := (push c _ rfl).trans (emit _ _)

theorem charge : Keeps c c.charge := set c rfl id id id

theorem pay : Keeps c c.pay := set c rfl id id id

theorem callCallback (cb : Callback) (failed : Bool) : Keeps c (callCallback c cb failed) := by
  cases cb with
  | write id => exact (log c rfl rfl).trans (push _ _ rfl)
  | writev ids => exact push c _ rfl

theorem callNext (ids : List Nat) (failed : Bool) : Keeps c (callNext c ids failed) := by
  cases ids with
  | nil => exact refl c
  | cons id rest =>
    have pushed := (pay c).trans (push _ (.callbacks rest failed) rfl)
    exact pushed.trans (callCallback _ (.write id) failed)

theorem afterWrite (finished : Bool) (cb : Callback) : Keeps c (afterWrite c finished cb) := by
  have pushed : Keeps c (c.push (.afterWrite cb)) := push c _ rfl
  simp only [Writable.afterWrite]
  split
  · exact (pushed.trans (set _ rfl id (fun set => by cases set) id)).trans (emit _ _)
  · exact pushed

theorem afterWriteEnd (cb : Callback) : Keeps c (afterWriteEnd c cb) :=
  ((pay c).trans (push _ _ rfl)).trans (callCallback _ _ _)

theorem onwriteErrorEnd : Keeps c (onwriteErrorEnd c) := (set c rfl id id id).trans (emit _ _)

theorem onwriteError (sync : Bool) (cb : Callback) : Keeps c (onwriteError c sync cb) := by
  cases sync with
  | false => exact ((pay c).trans (push _ _ rfl)).trans (callCallback _ _ _)
  | true => exact (nextTick c _).trans (onwriteErrorEnd _)

theorem prefinish : Keeps c (prefinish c) := by
  simp only [Writable.prefinish]
  split
  · exact refl c
  · exact (set c rfl id id id).trans (emit _ _)

theorem finish : Keeps c (finish c) :=
  ((onceFinish c []).trans (set _ rfl (fun _ => rfl) id id)).trans (emit _ _)

theorem endWritable (cb : Option Nat) : Keeps c (endWritable c cb) :=
  ((set c rfl id id id).trans (push _ _ rfl)).trans (push _ _ rfl)

theorem endWritableEnd (cb : Option Nat) : Keeps c (endWritableEnd c cb) := by
  cases cb with
  | none => exact set c (f := fun s => { s with ended := true }) rfl id id id
  | some =>
    simp only [Writable.endWritableEnd]
    split
    · exact (nextTick c _).trans (set _ rfl id id id)
    · exact (onceFinish c _).trans (set _ rfl id id id)

theorem runTick (tick : Tick) : Keeps c (runTick c tick) := by
  cases tick with
  | afterWrite finished cb => exact afterWrite c finished cb
  | onwriteError cb => exact (pay c).trans (callCallback _ _ _)
  | refused er => exact push c _ rfl
  | endCallback => exact push c _ rfl

end

theorem calls {a : Action Obj} (call : Calls c a c') : Keeps c c' := by
  cases call with
  | write => exact refl c
  | end_ => exact push c _ rfl

end Keeps

/-! ## The other transitions -/

/-- What a step does to the stored chunks. -/
inductive Effect (env : Environment) (c : Config Obj) (a : Action Obj) : Config Obj → Prop where
  | keeps {c' : Config Obj} (kept : Keeps c c') : Effect env c a c'
  | cork : Effect env c a (c.set fun s => { s with corked := s.corked + 1 })
  | buffered {b : Config Obj} (calls : Calls c a b) (request : Request Obj) (len : Nat)
      (accepts : a.accepts c.state = true) (number : request.id = (accepted c.trace).length)
      (measured : chunkLength c.state request.chunk = some len)
      (busy : c.state.writing = true ∨ c.state.corked ≠ 0) :
      Effect env c a (bufferRequest (accept b.charge request len) request)
  | direct {b : Config Obj} (calls : Calls c a b) (request : Request Obj) (len : Nat)
      (accepts : a.accepts c.state = true) (number : request.id = (accepted c.trace).length)
      (measured : chunkLength c.state request.chunk = some len)
      (idle : c.state.writing = false) (uncorked : c.state.corked = 0) :
      Effect env c a (doWriteOne (accept b.charge request len) request)
  | opened {b : Config Obj} (prepared : Opened c a b) (rests : b.Rests) : Effect env c a b
  | fast {b : Config Obj} (e : Nat) (prepared : Opened c a b) (ready : b.Ready)
      (first : b.state.bufferedRequest = some e) : Effect env c a (Writable.clearFast b.process)
  | slow {b : Config Obj} (e : Nat) (node : WriteReq Obj) (prepared : Opened c a b)
      (ready : b.Ready) (first : b.state.bufferedRequest = some e)
      (found : b.heap[e]? = some node) :
      Effect env c a (doWriteOne (b.process.push (.clearSlow e)) node.request)
  | failed (index : Nat) (handover : Handover Obj) (cb : Callback)
      (reports : a = .complete index true)
      (found : c.outstanding[index]? = some handover) :
      Effect env c a (onwriteError (settle c index handover true) c.state.sync cb)
  | clearFast (rest : List (Frame Obj)) (top : c.stack = .clearFast :: rest) : Effect env c a
        ({ c with stack := rest }.set fun s =>
          { s with bufferedRequest := none, bufferProcessing := false })
  | clearSlow (entry : Nat) (rest : List (Frame Obj)) (top : c.stack = .clearSlow entry :: rest)
      (stops : c.state.writing = true ∨ (c.heap[entry]?).bind WriteReq.next = none) :
      Effect env c a
        (clearSlowEnd { c with stack := rest } ((c.heap[entry]?).bind WriteReq.next))
  | clearNext (entry next : Nat) (node : WriteReq Obj) (rest : List (Frame Obj))
      (top : c.stack = .clearSlow entry :: rest)
      (after : (c.heap[entry]?).bind WriteReq.next = some next) (found : c.heap[next]? = some node)
      (idle : c.state.writing = false) :
      Effect env c a
        (doWriteOne ({ c with stack := rest }.push (.clearSlow next)) node.request)

theorem queueView_opened (prepared : Opened c a b) : b.queueView = c.queueView := by
  cases prepared with
  | uncork => rfl
  | end_ cb rest top => simp [queueView, top, Frame.clear?]
  | onwrite =>
    simp [queueView, settle, onwriteStateUpdate, Frame.clear?]

theorem accepts_of_written {chunk : Chunk Obj}
    (calls : Calls c a b) (passes : a.chunk? = some chunk) (open_ : b.state.ended = false)
    (valid : validChunk b.state chunk = true)
    (present : b.state.objectMode = true ∨ chunk.isNullish = false) :
    a.accepts c.state = true := by
  have same : b.state = c.state := by cases calls <;> rfl
  rw [same] at open_ valid present
  simpa [Action.accepts, passes, open_, valid] using present

theorem QueueView.Valid.found (valid : c.queueView.Valid) {next : Nat}
    (top : c.stack = .clearSlow entry :: rest)
    (after : (c.heap[entry]?).bind WriteReq.next = some next) : next < c.heap.length := by
  have slow : c.queueView.clears = .slow entry :: Writable.clears rest := by
    simp [queueView, top, Frame.clear?]
  obtain ⟨-, within, -, b, -, le, linked⟩ := valid.slow slow
  have same := linked.next le within
  rw [show c.queueView.heap = c.heap from rfl, after] at same
  split at same
  · cases same; assumption
  · cases same

theorem Transition.effect
    (valid : c.queueView.Valid) (moved : Transition env c a c') : Effect env c a c' := by
  have popped : ∀ {frame rest}, c.stack = frame :: rest → frame.clear? = none →
      Keeps c { c with stack := rest } := Keeps.pop
  cases moved with
  | written turn calls passes done =>
    have base := Keeps.calls calls
    cases done with
    | refused er => exact .keeps (base.trans (.refuse _ er))
    | threw => exact .keeps ((base.trans (.charge _)).trans (.log _ rfl rfl))
    | buffered request len number measured open_ well present busy =>
      have same : (accepted _) = accepted c.trace := congrArg QueueView.accepted base.view
      refine .buffered calls request len (accepts_of_written calls passes open_ well present)
        (same ▸ number) ?_ ?_
      · cases calls <;> exact measured
      · cases calls <;> exact busy
    | direct request len number measured open_ well present idle uncorked =>
      have same : (accepted _) = accepted c.trace := congrArg QueueView.accepted base.view
      refine .direct calls request len (accepts_of_written calls passes open_ well present)
        (same ▸ number) ?_ ?_ ?_
      · cases calls <;> exact measured
      · cases calls <;> exact idle
      · cases calls <;> exact uncorked
  | endCalled => exact .keeps (.push c _ rfl)
  | cork turn => exact .cork
  | uncorked => exact .keeps (.refl c)
  | opened prepared rests => exact .opened prepared rests
  | flushed prepared ready done =>
    cases done with
    | fast =>
      obtain ⟨e, first⟩ := Option.isSome_iff_exists.mp ready.buffered
      exact .fast e prepared ready first
    | slow e node first found => exact .slow e node prepared ready first found
    | dangling e first missing =>
      have view := queueView_opened prepared
      obtain ⟨within, -, -⟩ := (view ▸ valid).buffered ready.processing first
      exact absurd within (by simpa [queueView] using missing)
  | failed index handover cb turn found kept => exact .failed index handover cb rfl found
  | returned code rest top | notYet rest top | endAgain cb rest top => exact .keeps (popped top rfl)
  | ticked tick rest => exact .keeps ((Keeps.ticks c rest).trans (.runTick _ tick))
  | refuse er rest top | onwriteLater finished cb rest top =>
    exact .keeps ((popped top rfl).trans (.nextTick _ _))
  | doWrite rest top =>
    exact .keeps ((popped top rfl).trans (.set _ rfl id id nofun))
  | clearFast rest top => exact .clearFast rest top
  | clearSlow entry rest top stops => exact .clearSlow entry rest top stops
  | clearNext entry next node rest top after found idle =>
    exact .clearNext entry next node rest top after found idle
  | clearDangling entry next rest top after missing =>
    rw [List.getElem?_eq_none_iff] at missing
    exact absurd (valid.found top after) (by omega)
  | onwriteNow finished cb rest top => exact .keeps ((popped top rfl).trans (.afterWrite _ _ _))
  | afterWrite cb rest top => exact .keeps ((popped top rfl).trans (.afterWriteEnd _ _))
  | callbacks ids failed rest top => exact .keeps ((popped top rfl).trans (.callNext _ _ _))
  | onwriteError rest top => exact .keeps ((popped top rfl).trans (.onwriteErrorEnd _))
  | awaits rest top need => exact .keeps ((popped top rfl).trans (.prefinish _))
  | finishes rest top =>
    exact .keeps (((popped top rfl).trans (.push _ _ rfl)).trans (.prefinish _))
  | finish rest top => exact .keeps ((popped top rfl).trans (.finish _))
  | endUncork cb rest top => exact .keeps ((popped top rfl).trans (.push _ _ rfl))
  | endFinal cb rest top => exact .keeps ((popped top rfl).trans (.endWritable _ cb))
  | endWritable cb rest top => exact .keeps ((popped top rfl).trans (.endWritableEnd _ _))

/-! ## The simulation -/

def Config.ledger (c : Config Obj) : Ledger (Request Obj) := c.queueView.ledger

/-- The requests that wait to be handed over. -/
def Config.waiting (c : Config Obj) : List (Request Obj) := c.queueView.waiting

theorem waiting_of_idle_config (idle : clears c.stack = []) :
    c.waiting = c.getBuffer.map WriteReq.request := by
  have front : c.queueView.clears = [] := idle
  rw [Config.waiting, QueueView.waiting, QueueView.front, front]
  rfl

/-- What is known of a move of the ledger that a step makes. -/
structure Config.MoveOf (c : Config Obj) (a : Action Obj) (move : Ledger.Move (Request Obj)) :
    Prop where
  number : ∀ request ∈ move.item?, request.id = (accepted c.trace).length
  accepts : ∀ request ∈ move.item?, a.accepts c.state = true
  direct : ∀ request, move = .direct request → c.state.writing = false ∧ c.state.corked = 0
  drop : ∀ request, move = .drop request → clears c.stack = [.fast] ∨
    clears c.stack = [] ∧ c.state.bufferedRequest = none ∧ c.state.lastBufferedRequest ≠ none

theorem queueView_doWriteOne (c : Config Obj) (request : Request Obj) :
    (doWriteOne c request).queueView =
      { c.queueView with handed := c.queueView.handed ++ [request] } := by
  simp [queueView, doWriteOne, doWrite, Frame.clear?]

theorem queueView_accept (c : Config Obj) (request : Request Obj) (len : Nat) :
    (accept c request len).queueView =
      { c.queueView with accepted := c.queueView.accepted ++ [request] } := by
  simp [accept, queueView]

theorem queueView_buffered (calls : Calls c a b) (request : Request Obj) (len : Nat) :
    (bufferRequest (accept b.charge request len) request).queueView =
      c.queueView.buffer request := by
  have view : b.charge.queueView = c.queueView := ((Keeps.calls calls).trans (.charge b)).view
  have linked : ∀ d : Config Obj, (bufferRequest d request).queueView =
      { d.queueView.buffer request with accepted := d.queueView.accepted } := fun _ => rfl
  rw [linked, queueView_accept, view]
  rfl

theorem queueView_direct (calls : Calls c a b) (request : Request Obj) (len : Nat) :
    (doWriteOne (accept b.charge request len) request).queueView = c.queueView.direct request := by
  have view : b.charge.queueView = c.queueView := ((Keeps.calls calls).trans (.charge b)).view
  rw [queueView_doWriteOne, queueView_accept, view]
  rfl

theorem queueView_fast (prepared : Opened c a b) :
    (clearFast b.process).queueView = c.queueView.startFast := by
  rw [← queueView_opened prepared]
  simp [queueView, clearFast, doWrite, Config.process, Config.getBuffer, Frame.clear?,
    QueueView.startFast]

theorem queueView_slow (prepared : Opened c a b) (e : Nat) (request : Request Obj) :
    (doWriteOne (b.process.push (.clearSlow e)) request).queueView =
      c.queueView.handSlow e request := by
  rw [← queueView_opened prepared, queueView_doWriteOne]
  simp [queueView, Config.process, Frame.clear?, QueueView.handSlow]

theorem queueView_settle (c : Config Obj) (index : Nat) (handover : Handover Obj) (failed : Bool) :
    (settle c index handover failed).queueView = c.queueView := by
  simp [settle, onwriteStateUpdate, queueView]

theorem queueView_pop (top : c.stack = frame :: rest) (here : frame.clear? = some clear) :
    ({ c with stack := rest } : Config Obj).queueView = c.queueView.pop := by
  simp [queueView, QueueView.pop, top, here]

theorem clears_top (top : c.stack = frame :: rest) (here : frame.clear? = some clear) :
    c.queueView.clears = clear :: clears rest := by
  simp [queueView, top, here]

section

variable (valid : c.queueView.Valid)
include valid

theorem queueView_next
    (top : c.stack = .clearSlow entry :: rest) (next : Nat) (request : Request Obj) :
    (doWriteOne ({ c with stack := rest }.push (.clearSlow next)) request).queueView =
      c.queueView.pop.handSlow next request := by
  have busy : c.queueView.pop.processing = true := by
    have same := valid.processing
    rw [clears_top top rfl] at same
    exact same
  have view : (({ c with stack := rest } : Config Obj).push (.clearSlow next)).queueView =
      { c.queueView.pop with clears := .slow next :: c.queueView.pop.clears } := by
    rw [← queueView_pop top rfl]
    simp [queueView, Frame.clear?]
  rw [queueView_doWriteOne, view, QueueView.handSlow, ← busy]

/-- **Each step is a move in the ledger**, and leaves the queue valid. -/
theorem Effect.ledger (moved : Effect env c a c') :
    c'.queueView.Valid ∧ ∃ move, c.MoveOf a move ∧ c'.ledger = c.ledger.after move := by
  have rests : ∀ {d : Config Obj}, d.queueView = c.queueView →
      d.queueView.Valid ∧ ∃ move, c.MoveOf a move ∧ d.ledger = c.ledger.after move :=
    fun same => ⟨same ▸ valid, .rest, ⟨nofun, nofun, nofun, nofun⟩, congrArg QueueView.ledger same⟩
  have passes : ∀ {d : Config Obj} (count : Nat),
      d.queueView.Valid ∧ d.ledger = c.ledger.after (.pass count) →
      d.queueView.Valid ∧ ∃ move, c.MoveOf a move ∧ d.ledger = c.ledger.after move :=
    fun count ⟨valid', same⟩ => ⟨valid', .pass count, ⟨nofun, nofun, nofun, nofun⟩, same⟩
  cases moved with
  | keeps kept => exact rests kept.view
  | cork => exact rests rfl
  | buffered calls request len accepts number =>
    have view := queueView_buffered calls request len
    rw [Config.ledger, view]
    obtain ⟨valid', enqueued | ⟨dropped, why⟩⟩ := valid.buffer request
    · refine ⟨valid', .enqueue request, ⟨?_, fun _ _ => accepts, nofun, nofun⟩, enqueued⟩
      rintro _ ⟨⟩
      exact number
    refine ⟨valid', .drop request, ⟨?_, fun _ _ => accepts, nofun, fun _ _ => why⟩, dropped⟩
    rintro _ ⟨⟩
    exact number
  | direct calls request len accepts number measured idle uncorked =>
    have view := queueView_direct calls request len
    rw [Config.ledger, view]
    obtain ⟨valid', handed⟩ := valid.direct request
    refine ⟨valid', .direct request,
      ⟨?_, fun _ _ => accepts, fun _ _ => ⟨idle, uncorked⟩, nofun⟩, handed⟩
    rintro _ ⟨⟩
    exact number
  | opened prepared => exact rests (queueView_opened prepared)
  | fast e prepared ready first =>
    have view := queueView_opened prepared
    refine passes c.queueView.waiting.length ?_
    rw [Config.ledger, queueView_fast prepared]
    exact valid.startFast ((congrArg QueueView.processing view).symm.trans ready.processing)
      ((congrArg QueueView.first view).symm.trans first)
  | slow e node prepared ready first found =>
    have view := queueView_opened prepared
    refine passes 1 ?_
    rw [Config.ledger, queueView_slow prepared]
    refine valid.startSlow ((congrArg QueueView.processing view).symm.trans ready.processing)
      ((congrArg QueueView.first view).symm.trans first) ?_
    rw [← view]
    exact found
  | failed index handover =>
    exact rests ((Keeps.onwriteError _ _ _).view.trans (queueView_settle c index handover true))
  | clearFast rest top =>
    have ended := valid.endFast (clears_top top rfl)
    rw [← queueView_pop top rfl] at ended
    exact ⟨ended.1, .rest, ⟨nofun, nofun, nofun, nofun⟩, ended.2⟩
  | clearSlow entry rest top =>
    have ended := valid.endSlow (clears_top top rfl)
    rw [← queueView_pop top rfl] at ended
    exact ⟨ended.1, .rest, ⟨nofun, nofun, nofun, nofun⟩, ended.2⟩
  | clearNext entry next node rest top after found idle =>
    refine passes 1 ?_
    rw [Config.ledger, queueView_next valid top]
    exact valid.goSlow (clears_top top rfl) after found

/-- **The simulation.** Every step keeps the invariant of the queue and is one
move of the ledger. -/
theorem step_ledger (stepped : step env c a = some c') :
    c'.queueView.Valid ∧ ∃ move, c.MoveOf a move ∧ c'.ledger = c.ledger.after move :=
  ((transition_of_step stepped).effect valid).ledger valid

/-- A step that accepts nothing adds nothing to what is accepted. -/
theorem accepted_step (refused : a.accepts c.state ≠ true)
    (stepped : step env c a = some c') : accepted c'.trace = accepted c.trace := by
  obtain ⟨-, move, known, after⟩ := step_ledger valid stepped
  have same : accepted c'.trace = (c.ledger.after move).accepted := congrArg Ledger.accepted after
  rw [same]
  cases move with
  | rest => rfl
  | pass => rfl
  | enqueue item | direct item | drop item => exact absurd (known.accepts item rfl) refused

end

/-! ## Numbers -/

/-- The accepted writes are numbered from 0 on. -/
def Numbered (requests : List (Request Obj)) : Prop :=
  requests.map Request.id = List.range requests.length

section

variable (numbered : Numbered requests)
include numbered

theorem Numbered.nodup : requests.Nodup := List.Nodup.of_map Request.id (numbered ▸ nodup_range)

theorem Numbered.id_lt (member : request ∈ requests) : request.id < requests.length := by
  have := List.mem_map_of_mem (f := Request.id) member
  rw [numbered] at this
  exact mem_range.mp this

theorem Numbered.snoc (number : request.id = requests.length) :
    Numbered (requests ++ [request]) := by
  simp only [Numbered, map_append, map_cons, map_nil, length_append,
    length_singleton, range_succ, number]
  rw [numbered]

end

/-- What holds of the queue in every run, whatever the environment does. -/
structure QueueInv (c : Config Obj) : Prop where
  valid : c.queueView.Valid
  numbered : Numbered (accepted c.trace)
  accounted : c.ledger.Accounted

theorem QueueInv.new (options : Options) : QueueInv (Config.new options : Config Obj) where
  valid := ⟨rfl, .inl rfl⟩
  numbered := rfl
  accounted := List.Subperm.refl _

theorem numbered_after {move : Ledger.Move (Request Obj)}
    (numbered : Numbered c.ledger.accepted) (known : c.MoveOf a move) :
    Numbered (c.ledger.after move).accepted := by
  cases move with
  | rest => exact numbered
  | pass => exact numbered
  | enqueue item | direct item | drop item => exact numbered.snoc (known.number item rfl)

/-- Every step keeps the queue, whatever the environment does. -/
theorem QueueInv.step (inv : QueueInv c) (stepped : step env c a = some c') : QueueInv c' := by
  obtain ⟨valid, move, known, after⟩ := step_ledger inv.valid stepped
  refine ⟨valid, ?_, ?_⟩
  · have := numbered_after inv.numbered known
    rwa [← after] at this
  rw [after]
  exact inv.accounted.after move

/-- The queue is kept in every run. -/
theorem QueueInv.of_run {allowed : Config Obj → Action Obj → Prop} {options : Options}
    (run : Run (Writable.step env) allowed (Config.new options) c) : QueueInv c :=
  run.invariant QueueInv (.new options) fun inv _ stepped => inv.step stepped

theorem QueueInv.handed_nodup (inv : QueueInv c) : (handed c.trace).Nodup :=
  (nodup_append.mp (inv.accounted.nodup inv.numbered.nodup)).1

theorem QueueInv.eq_of_id (inv : QueueInv c) {request' : Request Obj}
    (member : request ∈ accepted c.trace) (member' : request' ∈ accepted c.trace)
    (same : request.id = request'.id) : request = request' :=
  inj_on_of_nodup_map (inv.numbered ▸ nodup_range) member member' same

theorem QueueInv.handed_accepted (inv : QueueInv c)
    (member : request ∈ handed c.trace) : request ∈ accepted c.trace :=
  inv.accounted.mem (mem_append_left _ member)

end IoJs.Stream.Writable
