import IoJs.Stream.Writable.Accounting
import IoJs.Stream.Writable.Lossless
import IoJs.Stream.Writable.Nesting

/-!
# What `length` and `pendingcb` count

`length` is the length of what is handed over and not completed plus the length of
what waits, as long as no request is lost (`Measured`). The fast case of
`clearBuffer` hands over `state.length` as the length of the whole list, which is
right because nothing is outstanding then.
-/

namespace IoJs.Stream.Writable

open IoJs.Library
open Config

variable {Obj : Type} {env : Environment} {c c' : Config Obj} {a : Action Obj}

/-- The length of a request: 1 in object mode, else the length of its chunk. -/
def weight (objectMode : Bool) (request : Request Obj) : Nat :=
  if objectMode then 1 else request.chunk.length?.getD 0

/-- The length of several requests. -/
def load (objectMode : Bool) (requests : List (Request Obj)) : Nat :=
  (requests.map (weight objectMode)).sum

section Load

variable (objectMode : Bool) (request : Request Obj) (requests requests' : List (Request Obj))

@[simp] theorem load_nil : load objectMode ([] : List (Request Obj)) = 0 := rfl

@[simp] theorem load_cons : load objectMode (request :: requests) =
    weight objectMode request + load objectMode requests := by
  simp [load]

@[simp] theorem load_append : load objectMode (requests ++ requests') =
    load objectMode requests + load objectMode requests' := by
  simp [load]

end Load

theorem weight_eq_chunkLength (state : WritableState) (request : Request Obj) :
    weight state.objectMode request = (chunkLength state request.chunk).getD 0 := by
  simp only [weight, chunkLength]
  split <;> rfl

/-- `length` and `writelen` are right. -/
structure Measured (c : Config Obj) : Prop where
  writelen : c.state.writelen = load c.state.objectMode (c.outstanding.flatMap Handover.requests)
  length : c.state.length = c.state.writelen + load c.state.objectMode c.waiting

namespace Measured

variable {c c' b : Config Obj} {a : Action Obj}

section

variable (measured : Measured c)
include measured

theorem of_keeps (kept : Keeps c c') : Measured c' where
  writelen := by
    rw [kept.writelen, kept.outstanding, kept.objectMode]
    exact measured.writelen
  length := by
    rw [kept.length, kept.writelen, kept.objectMode, waiting, kept.view]
    exact measured.length

theorem writelen_of_idle (books : Books c)
    (idle : c.state.writing = false) : c.outstanding = [] ∧ c.state.writelen = 0 := by
  rcases books.single with ⟨none, -, -⟩ | ⟨handover, cb, -, writing, -⟩
  · refine ⟨none, ?_⟩
    rw [measured.writelen, none]
    rfl
  rw [idle] at writing
  cases writing

theorem settle (books : Books c) {index : Nat} {handover : Handover Obj}
    (found : c.outstanding[index]? = some handover) (failed : Bool) :
    Measured (settle c index handover failed) := by
  have one : c.outstanding = [handover] ∧ index = 0 := by
    rcases books.single with ⟨none, -, -⟩ | ⟨handover', cb, alone, -⟩
    · rw [none] at found; cases found
    rw [alone, List.getElem?_singleton] at found
    split at found
    · rename_i first
      exact ⟨Option.some.inj found ▸ alone, first⟩
    · cases found
  refine ⟨by simp [Writable.settle, onwriteStateUpdate, one.1, one.2], ?_⟩
  have before := measured.length
  rw [waiting, queueView_settle, ← waiting]
  simp only [Writable.settle, onwriteStateUpdate, log_state, set_state]
  omega

theorem opened (books : Books c) (prepared : Opened c a b) : Measured b := by
  cases prepared with
  | uncork => exact ⟨measured.writelen, measured.length⟩
  | end_ cb rest top =>
    have popped := (measured.of_keeps (.pop top rfl)).of_keeps (.push _ (.endFinal cb) rfl)
    exact ⟨popped.writelen, popped.length⟩
  | onwrite index handover cb turn found kept =>
    exact (measured.settle books found false).of_keeps (.push _ _ rfl)

end

theorem doWriteOne {d : Config Obj} {request : Request Obj} (none : d.outstanding = [])
    (length : d.state.length = weight d.state.objectMode request +
      load d.state.objectMode (doWriteOne d request).waiting) :
    Measured (doWriteOne d request) := by
  have writelen : (Writable.doWriteOne d request).state.writelen =
      weight d.state.objectMode request := by
    rw [weight_eq_chunkLength]
    rfl
  constructor
  · rw [writelen]
    simp [Writable.doWriteOne, doWrite, none]
  rw [writelen]
  exact length

theorem effect (inv : TidyInv c) (books : Books c) (measured : Measured c)
    (polite : ¬ WritesIntoWritev c a) {env : Environment} (moved : Effect env c a c') :
    Measured c' := by
  cases moved with
  | keeps kept => exact measured.of_keeps kept
  | cork => exact ⟨measured.writelen, measured.length⟩
  | @buffered b calls request len accepts number sized busy =>
    have waits := inv.waiting_buffered polite accepts calls request len
    have kept := (Keeps.calls calls).trans (.charge b)
    have before := measured.length
    have sized' : weight c.state.objectMode request = len := by
      rw [weight_eq_chunkLength, sized]
      rfl
    have longer : (bufferRequest (accept b.charge request len) request).state.length =
        c.state.length + len := congrArg (· + (len : Int)) kept.length
    have mode : (bufferRequest (accept b.charge request len) request).state.objectMode =
        c.state.objectMode := kept.objectMode
    refine ⟨(measured.of_keeps kept).writelen, ?_⟩
    rw [waits, longer, mode, load_append, load_cons, load_nil, sized',
      show (bufferRequest (accept b.charge request len) request).state.writelen =
        c.state.writelen from kept.writelen]
    omega
  | @direct b calls request len accepts number sized idle uncorked =>
    have kept := (Keeps.calls calls).trans (.charge b)
    obtain ⟨none, zero⟩ := measured.writelen_of_idle books idle
    have before := measured.length
    have waits : (Writable.doWriteOne (accept b.charge request len) request).waiting =
        c.waiting := by
      rw [waiting, queueView_direct calls]
      rfl
    have sized' : weight c.state.objectMode request = len := by
      rw [weight_eq_chunkLength, sized]
      rfl
    have longer : (accept b.charge request len).state.length = c.state.length + len :=
      congrArg (· + (len : Int)) kept.length
    have mode : (accept b.charge request len).state.objectMode = c.state.objectMode :=
      kept.objectMode
    refine doWriteOne (kept.outstanding.trans none) ?_
    rw [waits, longer, mode, sized']
    omega
  | opened prepared => exact measured.opened books prepared
  | @fast b e prepared ready first =>
    have base := measured.opened books prepared
    obtain ⟨none, zero⟩ := base.writelen_of_idle (books.opened prepared) ready.writing
    have idle : clears b.stack = [] :=
      ((queueView_opened prepared).symm ▸ inv.valid).idle ready.processing
    have waits : (Writable.clearFast b.process).waiting = [] := by
      exact QueueView.waiting_of_fast rfl
    have before := base.length
    rw [zero, waiting_of_idle_config idle] at before
    constructor
    · simpa [Writable.clearFast, doWrite, process, getBuffer, none] using before
    rw [waits, load_nil]
    simp [Writable.clearFast, doWrite]
  | @slow b e node prepared ready first found =>
    have base := measured.opened books prepared
    obtain ⟨none, zero⟩ := base.writelen_of_idle (books.opened prepared) ready.writing
    have valid : b.queueView.Valid := (queueView_opened prepared).symm ▸ inv.valid
    have moved := (valid.startSlow ready.processing first found).2
    have waits : b.waiting = node.request ::
        (Writable.doWriteOne (b.process.push (.clearSlow e)) node.request).waiting := by
      exact Ledger.waiting_of_pass_one moved rfl
    refine doWriteOne none ?_
    have before := base.length
    rw [zero, waits, load_cons, zero_add] at before
    exact before
  | failed index handover cb reports found =>
    exact (measured.settle books found true).of_keeps (.onwriteError _ _ _)
  | clearFast rest top =>
    refine ⟨measured.writelen, ?_⟩
    rw [waiting_endFast inv.valid top]
    exact measured.length
  | clearSlow entry rest top =>
    refine ⟨measured.writelen, ?_⟩
    rw [waiting_endSlow inv.valid top]
    exact measured.length
  | clearNext entry next node rest top after found idle =>
    obtain ⟨none, zero⟩ := measured.writelen_of_idle books idle
    have moved := (inv.valid.goSlow (clears_top top rfl) after found).2
    have waits : c.waiting = node.request :: (Writable.doWriteOne
        ({ c with stack := rest }.push (.clearSlow next)) node.request).waiting := by
      exact Ledger.waiting_of_pass_one moved rfl
    refine doWriteOne none ?_
    have before := measured.length
    rw [zero, waits, load_cons, zero_add] at before
    exact before

end Measured

/-! ## Runs without calls from inside `_write` and `_writev` -/

/-- No method is called while `_write` or `_writev` is on the stack, and no null or
undefined is written outside object mode. -/
def FromOutside (c : Config Obj) (a : Action Obj) : Prop :=
  (a.isMethod = true → c.insideImplementation = false) ∧ a.present c.state = true

instance (c : Config Obj) (a : Action Obj) : Decidable (FromOutside c a) :=
  inferInstanceAs (Decidable (_ ∧ _))

theorem FromOutside.polite
    (outside : FromOutside c a) (nested : Nested c.stack) (stepped : step env c a = some c') :
    ¬ WritesIntoWritev c a := by
  rintro ⟨accepts, fast⟩
  have method := a.isMethod_of_accepts accepts
  rw [nested.clears_of_turn (turn_of_step method stepped) (outside.1 method)] at fast
  cases fast

/-- What holds of `length` and `pendingcb` in these runs. -/
structure CountInv (c : Config Obj) : Prop extends TidyInv c where
  nested : Nested c.stack
  books : Books c
  measured : Measured c
  thrown : thrown c.trace = 0

theorem CountInv.new (options : Options) : CountInv (new options : Config Obj) where
  toTidyInv := .new options
  nested := .nil
  books := .new options
  measured := ⟨rfl, rfl⟩
  thrown := rfl

/-- One step keeps `length` and `pendingcb` equal to what they count. -/
theorem CountInv.step (inv : CountInv c)
    (polite : ¬ WritesIntoWritev c a) (present : a.present c.state = true)
    (stepped : step env c a = some c') : CountInv c' where
  toTidyInv := inv.toTidyInv.step polite stepped
  nested := inv.nested.step (transition_of_step stepped)
  books := inv.books.step (transition_of_step stepped)
  measured := .effect inv.toTidyInv inv.books inv.measured polite
    ((transition_of_step stepped).effect inv.valid)
  thrown := (thrown_step (transition_of_step stepped) present).trans inv.thrown

end IoJs.Stream.Writable
