import IoJs.Library.Ledger
import IoJs.Stream.Writable.Machine

/-!
# The queue of a Writable as a ledger

What the functions that touch the buffered list do to the requests that are still
to be handed over, on the part of a configuration that makes up the queue.
-/

namespace IoJs.Stream.Writable

open IoJs.Library List Option

variable {Obj : Type} {heap : List (WriteReq Obj)} {first entry : Nat}

/-! ## Lists in the heap -/

/-- From `first` on, each node of the heap refers to the one after it, and the
last one to nothing. -/
def Linked (heap : List (WriteReq Obj)) (first : Nat) : Prop :=
  ∀ i node, first ≤ i → heap[i]? = some node →
    node.next = if i + 1 < heap.length then some (i + 1) else none

theorem Linked.mono {later : Nat} (linked : Linked heap first)
    (le : first ≤ later) : Linked heap later :=
  fun i node within found => linked i node (le.trans within) found

theorem follow_linked : ∀ {fuel first : Nat}, Linked heap first → heap.length ≤ first + fuel →
    follow heap fuel (some first) = heap.drop first := by
  intro fuel
  induction fuel with
  | zero => simp [follow]
  | succ fuel ih =>
    intro first linked enough
    cases found : heap[first]? with
    | none =>
      rw [drop_eq_nil_of_le (List.getElem?_eq_none_iff.mp found)]
      simp [follow, found]
    | some node =>
      obtain ⟨within, here⟩ := List.getElem?_eq_some_iff.mp found
      have next := linked first node le_rfl found
      rw [drop_eq_getElem_cons within, here]
      simp only [follow, found, List.cons.injEq, true_and]
      by_cases more : first + 1 < heap.length
      · simpa [next, more] using ih (linked.mono (by omega)) (by omega)
      rw [next, if_neg more, drop_eq_nil_of_le (by omega)]
      cases fuel <;> rfl

theorem Linked.next (linked : Linked heap first)
    (le : first ≤ entry) (within : entry < heap.length) :
    (heap[entry]?).bind WriteReq.next =
      if entry + 1 < heap.length then some (entry + 1) else none := by
  rw [List.getElem?_eq_getElem within, bind_some]
  exact linked entry _ le (List.getElem?_eq_getElem within)

theorem follow_next (linked : Linked heap first)
    (le : first ≤ entry) (within : entry < heap.length) :
    follow heap heap.length ((heap[entry]?).bind WriteReq.next) = heap.drop (entry + 1) := by
  rw [linked.next le within]
  by_cases more : entry + 1 < heap.length
  · simpa [more] using follow_linked (linked.mono (by omega)) (by omega)
  rw [if_neg more, drop_eq_nil_of_le (by omega)]
  cases heap.length <;> rfl

/-- The heap after a node was appended and linked from the last one. -/
def extend (heap : List (WriteReq Obj)) (request : Request Obj) : List (WriteReq Obj) :=
  heap.modify (heap.length - 1) (fun node => { node with next := some heap.length }) ++
    [⟨request, none⟩]

@[simp] theorem extend_length (heap : List (WriteReq Obj)) (request : Request Obj) :
    (extend heap request).length = heap.length + 1 := by
  simp [extend]

theorem Linked.extend (linked : Linked heap first)
    (request : Request Obj) : Linked (extend heap request) first := by
  intro i node within found
  rw [extend_length]
  rcases Nat.lt_trichotomy i heap.length with before | last | after
  · rw [Writable.extend, List.getElem?_append_left (by simpa using before),
      List.getElem?_modify] at found
    cases old : heap[i]? with
    | none => simp [old] at found
    | some node' =>
      rw [old] at found
      have next := linked i node' within old
      by_cases isLast : heap.length - 1 = i
      · grind
      simp only [isLast, ↓reduceIte, Option.map_eq_map, map_some, Option.some.injEq] at found
      subst found
      rw [next, if_pos (by omega), if_pos (by omega)]
  · subst last
    simp only [Writable.extend, List.getElem?_append_right, length_modify, Nat.le_refl,
      Nat.sub_self, List.getElem?_cons_zero, Option.some.injEq] at found
    subst found
    simp
  have none : (Writable.extend heap request)[i]? = none := by
    apply List.getElem?_eq_none_iff.mpr
    rw [extend_length]
    omega
  simp [none] at found

theorem map_request_extend (heap : List (WriteReq Obj)) (request : Request Obj) :
    (extend heap request).map WriteReq.request = heap.map WriteReq.request ++ [request] := by
  have kept : ∀ (l : List (WriteReq Obj)) (i : Nat) (n : Option Nat),
      (l.modify i fun node => { node with next := n }).map WriteReq.request =
        l.map WriteReq.request := by
    intro l
    induction l with
    | nil => intro i n; simp
    | cons head tail ih =>
      intro i n
      cases i with
      | zero => simp
      | succ i => simp [ih]
  simp [extend, kept]

theorem drop_map_extend (within : first ≤ heap.length) (request : Request Obj) :
    ((extend heap request).drop first).map WriteReq.request =
      (heap.drop first).map WriteReq.request ++ [request] := by
  rw [map_drop, map_request_extend, map_drop, drop_append_of_le_length (by simpa using within)]

/-! ## The part of a configuration that makes up the queue -/

/-- A `clearBuffer` in progress. -/
inductive Clear where
  | fast
  | slow (entry : Nat)
  deriving DecidableEq

/-- The `clearBuffer` that a frame belongs to. -/
def Frame.clear? : Frame Obj → Option Clear
  | .clearFast => some .fast
  | .clearSlow entry => some (.slow entry)
  | _ => none

/-- The calls of `clearBuffer` in progress, the innermost first. -/
def clears (stack : List (Frame Obj)) : List Clear := stack.filterMap Frame.clear?

@[simp] theorem clears_cons (frame : Frame Obj) (stack : List (Frame Obj)) :
    clears (frame :: stack) = frame.clear?.toList ++ clears stack := by
  cases h : frame.clear? <;> simp [clears, h]

/-- What the queue is made of. -/
@[ext] structure QueueView (Obj : Type) where
  heap : List (WriteReq Obj)
  first : Option Nat
  last : Option Nat
  processing : Bool
  clears : List Clear
  accepted : List (Request Obj)
  handed : List (Request Obj)

def Config.queueView (c : Config Obj) : QueueView Obj where
  heap := c.heap
  first := c.state.bufferedRequest
  last := c.state.lastBufferedRequest
  processing := c.state.bufferProcessing
  clears := clears c.stack
  accepted := accepted c.trace
  handed := handed c.trace

namespace QueueView

/-- Where the requests begin that are still to be handed over. -/
def front (v : QueueView Obj) : Option Nat :=
  match v.clears with
  | [] => v.first
  | .fast :: _ => none
  | .slow entry :: _ => (v.heap[entry]?).bind WriteReq.next

/-- The requests that are still to be handed over. -/
def waiting (v : QueueView Obj) : List (Request Obj) :=
  (follow v.heap v.heap.length v.front).map WriteReq.request

/-- The ledger of the queue. -/
def ledger (v : QueueView Obj) : Ledger (Request Obj) := ⟨v.accepted, v.handed, v.waiting⟩

/-- `lastBufferedRequest` is null or refers to the newest node. -/
def TailValid (v : QueueView Obj) : Prop :=
  v.last = none ∨ 0 < v.heap.length ∧ v.last = some (v.heap.length - 1)

/-- The situations of the buffered list. -/
def Situation (v : QueueView Obj) : Prop :=
  match v.clears with
  | [] =>
    match v.first with
    | none => v.TailValid
    | some b => b < v.heap.length ∧ Linked v.heap b ∧ v.last = some (v.heap.length - 1)
  | [.slow entry] =>
    entry < v.heap.length ∧ v.last = some (v.heap.length - 1) ∧
      ∃ b, v.first = some b ∧ b ≤ entry ∧ Linked v.heap b
  | [.fast] => v.first.isSome ∧ v.TailValid
  | _ => False

/-- The invariant of the queue. -/
structure Valid (v : QueueView Obj) : Prop where
  processing : v.processing = !v.clears.isEmpty
  situation : v.Situation

/-! ## What the functions do to the queue -/

/-- A request is accepted and buffered. -/
def buffer (v : QueueView Obj) (request : Request Obj) : QueueView Obj :=
  { v with
    accepted := v.accepted ++ [request]
    heap :=
      (match v.last with
        | some last => v.heap.modify last fun node => { node with next := some v.heap.length }
        | none => v.heap) ++ [⟨request, none⟩]
    last := some v.heap.length
    first := if v.last.isSome then v.first else some v.heap.length }

/-- A request is accepted and handed over at once. -/
def direct (v : QueueView Obj) (request : Request Obj) : QueueView Obj :=
  { v with accepted := v.accepted ++ [request], handed := v.handed ++ [request] }

/-- The fast case of `clearBuffer` begins. -/
def startFast (v : QueueView Obj) : QueueView Obj :=
  { v with
    processing := true
    last := none
    clears := .fast :: v.clears
    handed := v.handed ++ (follow v.heap v.heap.length v.first).map WriteReq.request }

/-- The slow case of `clearBuffer` hands over `entry`. -/
def handSlow (v : QueueView Obj) (entry : Nat) (request : Request Obj) : QueueView Obj :=
  { v with
    processing := true
    clears := .slow entry :: v.clears
    handed := v.handed ++ [request] }

/-- The slow case of `clearBuffer` ends at `entry`. -/
def endSlow (v : QueueView Obj) (entry : Option Nat) : QueueView Obj :=
  { v with
    last := if entry.isNone then none else v.last
    first := entry
    processing := false }

/-- The fast case of `clearBuffer` ends. -/
def endFast (v : QueueView Obj) : QueueView Obj := { v with first := none, processing := false }

/-- The view below the innermost `clearBuffer`. -/
def pop (v : QueueView Obj) : QueueView Obj := { v with clears := v.clears.tail }

/-! ## The invariant is kept, and the ledger moves -/

variable {v : QueueView Obj}
variable {b entry : Nat} {rest : List Clear} {request : Request Obj} {node : WriteReq Obj}

theorem Valid.idle (valid : v.Valid) (free : v.processing = false) : v.clears = [] := by
  have same := valid.processing
  rw [free] at same
  simpa using same.symm

theorem waiting_of_idle (idle : v.clears = []) (first : v.first = some b)
    (linked : Linked v.heap b) : v.waiting = (v.heap.drop b).map WriteReq.request := by
  simp only [waiting, front, idle, first]
  rw [follow_linked linked (by omega)]

theorem waiting_of_empty (idle : v.clears = []) (first : v.first = none) : v.waiting = [] := by
  simp only [waiting, front, idle, first]
  cases v.heap.length <;> rfl

theorem waiting_of_fast (fast : v.clears = .fast :: rest) : v.waiting = [] := by
  simp only [waiting, front, fast]
  cases v.heap.length <;> rfl

theorem waiting_of_slow (slow : v.clears = .slow entry :: rest)
    (linked : Linked v.heap b) (le : b ≤ entry) (within : entry < v.heap.length) :
    v.waiting = (v.heap.drop (entry + 1)).map WriteReq.request := by
  simp only [waiting, front, slow]
  rw [follow_next linked le within]

theorem buffer_heap (last : v.last = some (v.heap.length - 1)) :
    (v.buffer request).heap = extend v.heap request := by
  simp [buffer, last, extend]

theorem buffer_linked (last : v.last = some (v.heap.length - 1))
    (linked : Linked v.heap b) (request : Request Obj) : Linked (v.buffer request).heap b := by
  rw [buffer_heap last]
  exact linked.extend request

section

variable (valid : v.Valid)
include valid

/-- A buffered request comes to the end of the list, or is dropped where the list has lost it. -/
theorem Valid.buffer (request : Request Obj) : (v.buffer request).Valid ∧
    ((v.buffer request).ledger = v.ledger.after (.enqueue request) ∨
      (v.buffer request).ledger = v.ledger.after (.drop request) ∧
        (v.clears = [.fast] ∨ v.clears = [] ∧ v.first = none ∧ v.last ≠ none)) := by
  obtain ⟨processing, situation⟩ := valid
  have tail : (v.buffer request).last = some ((v.buffer request).heap.length - 1) := by
    cases h : v.last <;> simp [QueueView.buffer, h]
  have grown : (v.buffer request).heap.length = v.heap.length + 1 := by
    cases h : v.last <;> simp [QueueView.buffer, h]
  have kept : (v.buffer request).clears = v.clears := rfl
  have busy : (v.buffer request).processing = !(v.buffer request).clears.isEmpty := processing
  have ledger : ∀ w : List (Request Obj), (v.buffer request).waiting = w →
      (v.buffer request).ledger = ⟨v.accepted ++ [request], v.handed, w⟩ := by
    intro w same
    rw [← same]
    rfl
  match clearing : v.clears, situation with
  | [], situation =>
    simp only [Situation, clearing] at situation
    match first : v.first with
    | some b =>
      simp only [first] at situation
      obtain ⟨within, linked, last⟩ := situation
      have first' : (v.buffer request).first = some b := by simp [QueueView.buffer, last, first]
      have linked' := buffer_linked last linked request
      refine ⟨⟨busy, ?_⟩, .inl ?_⟩
      · simpa [Situation, kept, clearing, first'] using ⟨by omega, linked', tail⟩
      rw [ledger _ (waiting_of_idle (kept.trans clearing) first' linked'), buffer_heap last,
        drop_map_extend (by omega)]
      simp only [QueueView.ledger, Ledger.after, waiting_of_idle clearing first linked]
    | none =>
      simp only [first] at situation
      rcases situation with last | ⟨some, last⟩
      · -- the list was empty, the new node is its first and last one
        have first' : (v.buffer request).first = some v.heap.length := by
          simp [QueueView.buffer, last]
        have linked' : Linked (v.buffer request).heap v.heap.length := by
          intro i node within found
          have bound := (List.getElem?_eq_some_iff.mp found).1
          have same : i = v.heap.length := by omega
          subst same
          simp only [QueueView.buffer, last, List.getElem?_append_right, Nat.le_refl,
            Nat.sub_self, List.getElem?_cons_zero, Option.some.injEq] at found
          subst found
          rw [if_neg (by omega)]
        refine ⟨⟨busy, ?_⟩, .inl ?_⟩
        · simpa [Situation, kept, clearing, first'] using ⟨by omega, linked', tail⟩
        rw [ledger _ (waiting_of_idle (kept.trans clearing) first' linked')]
        simp [QueueView.ledger, Ledger.after, waiting_of_empty clearing first,
          QueueView.buffer, last]
      -- a node was lost before, and the new one is chained to it
      have first' : (v.buffer request).first = none := by simp [QueueView.buffer, last, first]
      refine ⟨⟨busy, ?_⟩, .inr ⟨?_, .inr ⟨rfl, rfl, by simp [last]⟩⟩⟩
      · simpa [Situation, kept, clearing, first'] using .inr ⟨by omega, tail⟩
      rw [ledger _ (waiting_of_empty (kept.trans clearing) first')]
      simp only [QueueView.ledger, Ledger.after, waiting_of_empty clearing first]
  | [.slow entry], situation =>
    simp only [Situation, clearing] at situation
    obtain ⟨within, last, b, first, le, linked⟩ := situation
    have first' : (v.buffer request).first = some b := by simp [QueueView.buffer, last, first]
    have linked' := buffer_linked last linked request
    refine ⟨⟨busy, ?_⟩, .inl ?_⟩
    · simpa [Situation, kept, clearing] using ⟨by omega, tail, b, first', le, linked'⟩
    rw [ledger _ (waiting_of_slow (kept.trans clearing) linked' le (by omega)),
      buffer_heap last, drop_map_extend (by omega)]
    simp only [QueueView.ledger, Ledger.after, waiting_of_slow clearing linked le within]
  | [.fast], situation =>
    simp only [Situation, clearing] at situation
    have first' : (v.buffer request).first.isSome := by
      simp only [QueueView.buffer]
      split
      · exact situation.1
      · rfl
    refine ⟨⟨busy, ?_⟩, .inr ⟨?_, .inl rfl⟩⟩
    · simpa [Situation, kept, clearing] using ⟨first', .inr ⟨by omega, tail⟩⟩
    rw [ledger _ (waiting_of_fast (kept.trans clearing))]
    simp only [QueueView.ledger, Ledger.after, waiting_of_fast clearing]
  | .slow _ :: _ :: _, situation => simp [Situation, clearing] at situation
  | .fast :: _ :: _, situation => simp [Situation, clearing] at situation

theorem Valid.direct (request : Request Obj) :
    (v.direct request).Valid ∧ (v.direct request).ledger = v.ledger.after (.direct request) :=
  ⟨⟨valid.processing, valid.situation⟩, rfl⟩

theorem Valid.buffered (free : v.processing = false) (first : v.first = some b) :
    b < v.heap.length ∧ Linked v.heap b ∧ v.last = some (v.heap.length - 1) := by
  have situation := valid.situation
  simpa only [Situation, valid.idle free, first] using situation

theorem Valid.startFast (free : v.processing = false) (first : v.first = some b) :
    v.startFast.Valid ∧ v.startFast.ledger = v.ledger.after (.pass v.waiting.length) := by
  have idle := valid.idle free
  refine ⟨⟨rfl, ?_⟩, ?_⟩
  · simp [Situation, QueueView.startFast, idle, first, TailValid]
  have none : v.startFast.waiting = [] := waiting_of_fast rfl
  have all : (follow v.heap v.heap.length v.first).map WriteReq.request = v.waiting := by
    simp only [waiting, front, idle]
  simp only [QueueView.ledger, Ledger.after, none, take_length, drop_length]
  simp only [QueueView.startFast, all]

theorem Valid.startSlow (free : v.processing = false)
    (first : v.first = some b) (found : v.heap[b]? = some node) :
    (v.handSlow b node.request).Valid ∧
      (v.handSlow b node.request).ledger = v.ledger.after (.pass 1) := by
  have idle := valid.idle free
  obtain ⟨within, linked, last⟩ := valid.buffered free first
  have here : v.heap.drop b = node :: v.heap.drop (b + 1) := by
    rw [drop_eq_getElem_cons within, (List.getElem?_eq_some_iff.mp found).2]
  refine ⟨⟨rfl, ?_⟩, ?_⟩
  · simp only [Situation, QueueView.handSlow, idle]
    exact ⟨within, last, b, first, le_rfl, linked⟩
  simp only [QueueView.ledger, Ledger.after, waiting_of_idle idle first linked, here,
    map_cons, take_succ_cons, take_zero, drop_succ_cons, drop_zero]
  rw [waiting_of_slow (v := v.handSlow b node.request) rfl linked le_rfl within]
  rfl

theorem Valid.slow (slow : v.clears = .slow entry :: rest) :
    rest = [] ∧ entry < v.heap.length ∧ v.last = some (v.heap.length - 1) ∧
      ∃ b, v.first = some b ∧ b ≤ entry ∧ Linked v.heap b := by
  have situation := valid.situation
  cases rest with
  | nil => exact ⟨rfl, by simpa only [Situation, slow] using situation⟩
  | cons => simp [Situation, slow] at situation

theorem Valid.goSlow {next : Nat} (slow : v.clears = .slow entry :: rest)
    (after : (v.heap[entry]?).bind WriteReq.next = some next) (found : v.heap[next]? = some node) :
    (v.pop.handSlow next node.request).Valid ∧
      (v.pop.handSlow next node.request).ledger = v.ledger.after (.pass 1) := by
  obtain ⟨rfl, within, last, b, first, le, linked⟩ := valid.slow slow
  obtain ⟨within', here⟩ := List.getElem?_eq_some_iff.mp found
  have same : next = entry + 1 := by
    rw [linked.next le within] at after
    split at after
    · exact (some.inj after).symm
    · cases after
  subst same
  refine ⟨⟨rfl, ?_⟩, ?_⟩
  · simp only [Situation, QueueView.handSlow, QueueView.pop, slow, tail_cons]
    exact ⟨within', last, b, first, by omega, linked⟩
  have waits : v.heap.drop (entry + 1) = node :: v.heap.drop (entry + 2) := by
    rw [drop_eq_getElem_cons within', here]
  simp only [QueueView.ledger, Ledger.after, waiting_of_slow slow linked le within, waits,
    map_cons, take_succ_cons, take_zero, drop_succ_cons, drop_zero]
  rw [waiting_of_slow (v := v.pop.handSlow (entry + 1) node.request) rfl linked (by omega)
    within']
  rfl

theorem Valid.endSlow (slow : v.clears = .slow entry :: rest) :
    (v.pop.endSlow ((v.heap[entry]?).bind WriteReq.next)).Valid ∧
      (v.pop.endSlow ((v.heap[entry]?).bind WriteReq.next)).ledger = v.ledger := by
  obtain ⟨rfl, within, last, b, first, le, linked⟩ := valid.slow slow
  have idle : (v.pop.endSlow ((v.heap[entry]?).bind WriteReq.next)).clears = [] := by
    simp [QueueView.endSlow, QueueView.pop, slow]
  have waits := waiting_of_slow slow linked le within
  have next := linked.next le within
  refine ⟨⟨by simp [QueueView.endSlow, QueueView.pop, slow], ?_⟩, ?_⟩
  · simp only [Situation, idle]
    by_cases more : entry + 1 < v.heap.length
    · simp only [next, if_pos more, QueueView.endSlow, QueueView.pop]
      exact ⟨more, linked.mono (by omega), by simpa using last⟩
    · simp [next, if_neg more, QueueView.endSlow, QueueView.pop, TailValid]
  have same : (v.pop.endSlow ((v.heap[entry]?).bind WriteReq.next)).waiting = v.waiting := by
    rw [waits, waiting, front, idle]
    simp only [QueueView.endSlow, QueueView.pop]
    rw [follow_next linked le within]
  simp only [QueueView.ledger, same]
  rfl

theorem Valid.endFast (fast : v.clears = .fast :: rest) :
    v.pop.endFast.Valid ∧ v.pop.endFast.ledger = v.ledger := by
  have situation := valid.situation
  cases rest with
  | cons => simp [Situation, fast] at situation
  | nil =>
    simp only [Situation, fast] at situation
    have idle : v.pop.endFast.clears = [] := by simp [QueueView.endFast, QueueView.pop, fast]
    refine ⟨⟨by simp [QueueView.endFast, QueueView.pop, fast], ?_⟩, ?_⟩
    · simp only [Situation, idle]
      exact situation.2
    simp only [QueueView.ledger, waiting_of_fast fast, waiting_of_empty idle rfl]
    rfl

theorem waiting_subset (waits : request ∈ v.waiting) :
    request ∈ (follow v.heap v.heap.length v.first).map WriteReq.request := by
  match clearing : v.clears with
  | [] => simpa only [waiting, front, clearing] using waits
  | .fast :: _ => simp [waiting_of_fast clearing] at waits
  | .slow entry :: _ =>
    obtain ⟨-, within, -, b, first, le, linked⟩ := valid.slow clearing
    rw [waiting_of_slow clearing linked le within] at waits
    rw [first, follow_linked linked (by omega)]
    have tail : v.heap.drop (entry + 1) <:+ v.heap.drop b := by
      have split : entry + 1 = b + (entry + 1 - b) := by omega
      rw [split, ← drop_drop]
      exact drop_suffix _ _
    exact map_subset _ tail.subset waits

end

end QueueView

end IoJs.Stream.Writable
