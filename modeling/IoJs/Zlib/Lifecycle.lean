import IoJs.Zlib.Stream
import Mathlib.Tactic.Common

/-!
# The lifecycle of a `Zlib`

`_closed`, `_hadError` and `_handle` agree with the flags of the native context (`Fine`) as long as
the calls leave some slips alone (`Careful`): the follow-up of a full window is written without a
look at `_closed`, `close` and `reset` do not look at `_handle`, `reset` throws behind `close`, and
`end` takes writes from listeners of `'finish'`. Then nothing is `null` that is used, no `CHECK`
fails, and behind `close` or an error nothing reaches the native context (`lifecycle`). An error of
a native write leaves its chunk in work for good, so that the code never comes to `_handle` again.
-/

namespace IoJs.Zlib

open IoJs.Library List Option

variable {z z' : Zlib} {owner : Owner} {events : List Event}

def Frame.isPushed : Frame → Bool
  | .pushed _ _ => true
  | _ => false

/-- A native write has not come to its callback, or the callback is in `push`. -/
def Busy (z : Zlib) (owner : Owner) : Prop :=
  z.ctx.work = some owner ∨ ∃ full, Frame.pushed owner full ∈ z.stack

/-- A native write has been queued. -/
def Context.started (ctx : Context) (owner : Owner) : Context :=
  { ctx with writeInProgress := true, refs := ctx.refs + 1, work := some owner }

/-- What has been set before a native write -/
def Ready (z : Zlib) : Owner → Prop
  | .chunk => z.transforming = true
  | .flush => z.prefinished = true

/-- What holds between two events -/
structure Fine (z : Zlib) : Prop where
  handle : z.hasHandle = !z.hadError
  closed : z.ctx.finalized = true ∨ z.ctx.pendingClose = true → z.closed = true
  working : z.ctx.work ≠ none → z.ctx.writeInProgress = true
  progress : z.ctx.writeInProgress = true → z.ctx.work ≠ none ∨ z.hadError = true
  error : z.hadError = true → z.ctx.work = none
  -- the callback of the write that failed is never called
  stuck : z.hadError = true → z.transforming = true ∨ z.prefinished = true
  failed : ∀ dictionaryFails, Frame.failed dictionaryFails ∈ z.stack →
    z.hadError = true ∧ dictionaryFails = none
  refs : z.ctx.refs = z.ctx.writeInProgress.toNat + z.stack.count .called
  holds : z.holdsChunk = z.writing
  transforming : z.transforming = true → z.writing = true
  prefinished : z.prefinished = true → z.writing = false
  ready : ∀ owner, Busy z owner → Ready z owner
  pushed : ∀ owner full, Frame.pushed owner full ∈ z.stack →
    z.ctx.writeInProgress = false ∧ z.hadError = false
  single : z.stack.countP Frame.isPushed ≤ 1

theorem fine_new : Fine new where
  handle := rfl
  closed some_ := by rcases some_ with some_ | some_ <;> cases some_
  working some_ := absurd rfl some_
  progress some_ := by cases some_
  error some_ := by cases some_
  stuck some_ := by cases some_
  failed _ mem := absurd mem not_mem_nil
  refs := rfl
  holds := rfl
  transforming some_ := by cases some_
  prefinished some_ := by cases some_
  ready owner busy := by
    rcases busy with work | ⟨full, mem⟩
    · cases work
    · exact absurd mem not_mem_nil
  pushed _ _ mem := absurd mem not_mem_nil
  single := Nat.zero_le 1

namespace Fine

section

variable (fine : Fine z)
include fine

theorem report (r : Report) : Fine (z.report r) := { fine with }

theorem not_closed (open_ : z.closed = false) :
    z.ctx.finalized = false ∧ z.ctx.pendingClose = false := by
  constructor
  · cases finalized : z.ctx.finalized with
    | false => rfl
    | true => exact absurd (fine.closed (.inl finalized)) (by simp [open_])
  cases pending : z.ctx.pendingClose with
  | false => rfl
  | true => exact absurd (fine.closed (.inr pending)) (by simp [open_])

theorem not_busy (noError : z.hadError = false)
    (idle : ∀ owner, ¬Busy z owner) : z.ctx.writeInProgress = false := by
  cases writing : z.ctx.writeInProgress with
  | false => rfl
  | true =>
    rcases fine.progress writing with work | failed
    · obtain ⟨owner, some_⟩ := ne_none_iff_exists'.mp work
      exact absurd (.inl some_) (idle owner)
    · exact absurd failed (Bool.eq_false_iff.mp noError)

theorem afterTransform (noError : z.hadError = false) (idle : ¬Busy z .chunk)
    (er : Option String) : Fine (z.afterTransform er) := by
  have cleared : Fine { z with transforming := false } :=
    { fine with
      stuck := fun some_ => absurd some_ (Bool.eq_false_iff.mp noError)
      transforming := nofun
      ready := fun owner busy => by
        cases owner with
        | chunk => exact absurd busy idle
        | flush => exact fine.ready .flush busy }
  have released : Fine { z with transforming := false, holdsChunk := false, writing := false } :=
    { cleared with
      stuck := fun some_ => absurd some_ (Bool.eq_false_iff.mp noError)
      holds := rfl
      transforming := nofun
      prefinished := fun _ => rfl }
  rw [Zlib.afterTransform]
  split_ifs
  · exact cleared.report _
  cases er with
  | none => exact released
  | some er => exact released.report _

theorem done (prefinished : z.prefinished = true) (er : Option String) :
    ∃ z', z.done er = .ok z' ∧ Fine z' := by
  cases er with
  | some er => exact ⟨_, rfl, fine.report _⟩
  | none =>
    have idle := fine.prefinished prefinished
    have still : z.transforming = false := by
      cases transforming : z.transforming with
      | false => rfl
      | true => exact (fine.transforming transforming).symm.trans idle
    refine ⟨z, ?_, fine⟩
    rw [Zlib.done, idle, still]
    rfl

theorem cb (noError : z.hadError = false) (idle : ¬Busy z owner) (ready : Ready z owner)
    (er : Option String) : ∃ z', z.cb owner er = .ok z' ∧ Fine z' := by
  cases owner with
  | chunk => exact ⟨_, rfl, fine.afterTransform noError idle er⟩
  | flush => exact fine.done ready er

theorem handleWrite (noError : z.hadError = false) (open_ : z.closed = false)
    (idle : z.ctx.writeInProgress = false) (ready : Ready z owner)
    (noPushed : z.stack.countP Frame.isPushed = 0) :
    ∃ z', z.handleWrite owner = .ok z' ∧ Fine z' := by
  obtain ⟨notFinalized, notPending⟩ := fine.not_closed open_
  have none_ : ∀ owner full, Frame.pushed owner full ∉ z.stack := by
    intro owner full mem
    exact countP_eq_zero.mp noPushed _ mem rfl
  have handle : z.hasHandle = true := by rw [fine.handle, noError]; rfl
  have written : z.ctx.write owner = .ok (z.ctx.started owner) := by
    rw [Context.write, if_neg (Bool.eq_false_iff.mp notFinalized),
      if_neg (Bool.eq_false_iff.mp idle), if_neg (Bool.eq_false_iff.mp notPending)]
    rfl
  have fine' : Fine { z with ctx := z.ctx.started owner } :=
    { fine with
      working := fun _ => rfl
      progress := fun _ => .inl (some_ne_none owner)
      error := fun some_ => absurd some_ (Bool.eq_false_iff.mp noError)
      refs := by
        show z.ctx.refs + 1 = 1 + z.stack.count .called
        simp [fine.refs, idle, Nat.add_comm]
      ready := fun owner' busy => by
        rcases busy with work | ⟨full, mem⟩
        · cases work
          cases owner with
          | chunk => exact ready
          | flush => exact ready
        · exact absurd mem (none_ owner' full)
      pushed := fun owner' full mem => absurd mem (none_ owner' full) }
  refine ⟨{ z with ctx := z.ctx.started owner }, ?_, fine'⟩
  rw [Zlib.handleWrite, if_pos handle, written]
  rfl

theorem transform (noError : z.hadError = false)
    (idle : ∀ owner, ¬Busy z owner) (ready : Ready z owner) (isBuffer : Bool) :
    ∃ z', z.transform owner isBuffer = .ok z' ∧ Fine z' := by
  rw [Zlib.transform]
  split_ifs with other closed
  · exact fine.cb noError (idle owner) ready _
  · exact fine.cb noError (idle owner) ready _
  have open_ : z.closed = false := Bool.eq_false_iff.mpr closed
  have noPushed : z.stack.countP Frame.isPushed = 0 := by
    rw [countP_eq_zero]
    intro frame mem isPushed
    cases frame with
    | pushed owner' full => exact idle owner' (.inr ⟨full, mem⟩)
    | called => cases isPushed
    | failed => cases isPushed
  rw [processChunk, if_neg closed]
  exact fine.handleWrite noError open_ (fine.not_busy noError idle) ready noPushed

theorem fail (atTop : z.stack = []) (work : z.ctx.work = some owner) (message : String) :
    Fine ({ z with ctx := { z.ctx with work := none } }.error message none) where
  handle := rfl
  closed := fine.closed
  working some_ := absurd rfl some_
  progress _ := .inr rfl
  error _ := rfl
  stuck _ := by
    have ready := fine.ready owner (.inl work)
    cases owner with
    | chunk => exact .inl ready
    | flush => exact .inr ready
  failed dictionaryFails mem := by
    rw [Zlib.error, atTop, mem_singleton] at mem
    cases mem
    exact ⟨rfl, rfl⟩
  refs := by
    show z.ctx.refs = z.ctx.writeInProgress.toNat + (Frame.failed none :: z.stack).count .called
    simpa using fine.refs
  holds := fine.holds
  transforming := fine.transforming
  prefinished := fine.prefinished
  ready owner busy := by
    rcases busy with some_ | ⟨full, mem⟩
    · cases some_
    rw [Zlib.error, atTop, mem_singleton] at mem
    cases mem
  pushed owner full mem := by
    rw [Zlib.error, atTop, mem_singleton] at mem
    cases mem
  single := fine.single

theorem closeContext (closed : z.closed = true) : Fine { z with ctx := z.ctx.close } := by
  rw [Context.close]
  split_ifs
  · exact { fine with closed := fun _ => closed }
  · exact { fine with closed := fun _ => closed }

theorem closePending : Fine { z with ctx := z.ctx.closePending } := by
  rw [Context.closePending]
  split_ifs with pending
  · exact fine.closeContext (fine.closed (.inr pending))
  · exact fine

theorem push (noError : z.hadError = false) (idle : z.ctx.writeInProgress = false)
    (noPushed : z.stack.countP Frame.isPushed = 0) (ready : Ready z owner) (full : Bool) :
    Fine { z with stack := .pushed owner full :: z.stack } :=
  { fine with
    failed := fun dictionaryFails mem => by
      rcases mem_cons.mp mem with same | mem
      · cases same
      · exact fine.failed dictionaryFails mem
    refs := by
      show z.ctx.refs = z.ctx.writeInProgress.toNat +
        (Frame.pushed owner full :: z.stack).count .called
      exact fine.refs
    ready := fun owner' busy => by
      have before : Ready z owner' := by
        rcases busy with work | ⟨full', mem⟩
        · exact fine.ready owner' (.inl work)
        rcases mem_cons.mp mem with same | mem
        · grind
        · exact fine.ready owner' (.inr ⟨full', mem⟩)
      cases owner' with
      | chunk => exact before
      | flush => exact before
    pushed := fun _ _ _ => ⟨idle, noError⟩
    single := by
      show (Frame.pushed owner full :: z.stack).countP Frame.isPushed ≤ 1
      rw [countP_cons, noPushed]
      exact Nat.le_refl 1 }

/-- Every result of the work is taken, and nothing is missing behind it. -/
theorem after (atTop : z.stack = []) (work : z.ctx.work ≠ none) (result : Result) :
    ∃ z', z.after result = .ok z' ∧ Fine z' := by
  obtain ⟨owner, some_⟩ := ne_none_iff_exists'.mp work
  have writing := fine.working work
  have noError : z.hadError = false :=
    Bool.eq_false_iff.mpr fun failed => work (fine.error failed)
  have ready := fine.ready owner (.inl some_)
  have noFrame : ∀ frame, frame ∉ z.stack := by simp [atTop]
  have called : Fine { z with
      ctx := { z.ctx with work := none, writeInProgress := false }, stack := .called :: z.stack } :=
    { fine with
      working := fun some_ => absurd rfl some_
      progress := nofun
      error := fun _ => rfl
      failed := fun dictionaryFails mem => by
        rcases mem_cons.mp mem with same | mem
        · cases same
        · exact absurd mem (noFrame _)
      refs := by
        show z.ctx.refs = 0 + (Frame.called :: z.stack).count .called
        simp [fine.refs, writing, atTop]
      ready := fun owner busy => by
        rcases busy with work | ⟨full, mem⟩
        · cases work
        · grind
      pushed := fun _ _ _ => ⟨rfl, noError⟩ }
  have idle : ¬Busy { z with
      ctx := { z.ctx with work := none, writeInProgress := false },
      stack := .called :: z.stack } owner := by
    rintro (work | ⟨full, mem⟩)
    · cases work
    · grind
  have ready' : Ready { z with
      ctx := { z.ctx with work := none, writeInProgress := false },
      stack := .called :: z.stack } owner := by
    cases owner with
    | chunk => exact ready
    | flush => exact ready
  have noPushed : (Frame.called :: z.stack).countP Frame.isPushed = 0 := by
    rw [atTop]
    rfl
  rw [Zlib.after, some_]
  cases result with
  | error message => exact ⟨_, rfl, fine.fail atTop some_ message⟩
  | full =>
    refine ⟨_, ?_, called.push noError rfl noPushed ready' true⟩
    exact if_neg (Bool.eq_false_iff.mp noError)
  | output =>
    refine ⟨_, ?_, called.push noError rfl noPushed ready' false⟩
    exact if_neg (Bool.eq_false_iff.mp noError)
  | nothing =>
    obtain ⟨z', done, fine'⟩ := called.cb noError idle ready' none
    exact ⟨z', (if_neg (Bool.eq_false_iff.mp noError)).trans done, fine'⟩

end

section Return

variable {frame : Frame} {rest : List Frame} (fine : Fine z) (stack : z.stack = frame :: rest)
variable {ctx : Context}

include fine stack

omit fine in
theorem busy_of_rest (work : ctx.work = z.ctx.work)
    (busy : Busy { z with ctx, stack := rest } owner) : Busy z owner := by
  rcases busy with some_ | ⟨full, mem⟩
  · exact .inl (work.symm.trans some_)
  · exact .inr ⟨full, stack ▸ mem_cons_of_mem frame mem⟩

theorem single_of_rest : rest.countP Frame.isPushed ≤ 1 := by
  have single := fine.single
  rw [stack, countP_cons] at single
  omega

theorem pop (closing : ctx.finalized = z.ctx.finalized ∧ ctx.pendingClose = z.ctx.pendingClose)
    (work : ctx.work = z.ctx.work) (working : ctx.work ≠ none → ctx.writeInProgress = true)
    (progress : ctx.writeInProgress = true → z.ctx.writeInProgress = true)
    (refs : ctx.refs = ctx.writeInProgress.toNat + rest.count .called) :
    Fine { z with ctx, stack := rest } :=
  { fine with
    closed := by
      rw [closing.1, closing.2]
      exact fine.closed
    working
    progress := fun writing => by
      rw [work]
      exact fine.progress (progress writing)
    error := fun failed => by
      rw [work]
      exact fine.error failed
    failed := fun dictionaryFails mem =>
      fine.failed dictionaryFails (stack ▸ mem_cons_of_mem frame mem)
    refs
    ready := fun owner busy => by
      have before := fine.ready owner (busy_of_rest stack work busy)
      cases owner with
      | chunk => exact before
      | flush => exact before
    pushed := fun owner full mem => by
      obtain ⟨idle, noError⟩ := fine.pushed owner full (stack ▸ mem_cons_of_mem frame mem)
      refine ⟨?_, noError⟩
      cases writing : ctx.writeInProgress with
      | false => rfl
      | true => exact (progress writing).symm.trans idle
    single := fine.single_of_rest stack }

end Return

variable {rest : List Frame}

theorem return_pushed (fine : Fine z) {full : Bool} (stack : z.stack = .pushed owner full :: rest)
    (careful : full = true → z.closed = false) :
    ∃ z', { z with stack := rest }.pushed owner full = .ok z' ∧ Fine z' := by
  have mem : Frame.pushed owner full ∈ z.stack := stack ▸ mem_cons_self
  obtain ⟨idle, noError⟩ := fine.pushed owner full mem
  have refs := fine.refs
  have single := fine.single
  rw [stack, count_cons_of_ne (by simp)] at refs
  rw [stack, countP_cons] at single
  have noPushed : rest.countP Frame.isPushed = 0 :=
    Nat.le_zero.mp (Nat.le_of_add_le_add_right single)
  have popped : Fine { z with stack := rest } := fine.pop stack ⟨rfl, rfl⟩ rfl fine.working id refs
  have ready : Ready { z with stack := rest } owner := by
    have before := fine.ready owner (.inr ⟨full, mem⟩)
    cases owner with
    | chunk => exact before
    | flush => exact before
  cases full with
  | true => exact popped.handleWrite noError (careful rfl) idle ready noPushed
  | false =>
    refine popped.cb noError (fun busy => ?_) ready none
    rcases busy with work | ⟨full, mem⟩
    · have writing := fine.working (by simp [show z.ctx.work = some owner from work])
      simp [idle] at writing
    · exact countP_eq_zero.mp noPushed _ mem rfl

theorem return_called (fine : Fine z) (stack : z.stack = .called :: rest) :
    ∃ ctx, z.ctx.unref = .ok ctx ∧ Fine { z with ctx := ctx.closePending, stack := rest } := by
  have refs := fine.refs
  rw [stack, count_cons_self] at refs
  refine ⟨{ z.ctx with refs := z.ctx.refs - 1 }, if_pos (by omega), ?_⟩
  have popped : Fine { z with ctx := { z.ctx with refs := z.ctx.refs - 1 }, stack := rest } :=
    fine.pop stack ⟨rfl, rfl⟩ rfl fine.working id (by
      show z.ctx.refs - 1 = z.ctx.writeInProgress.toNat + rest.count .called
      omega)
  exact popped.closePending

theorem return_failed (fine : Fine z) (stack : z.stack = .failed none :: rest) :
    ∃ ctx, (if z.ctx.writeInProgress then z.ctx.unref else .ok z.ctx) = .ok ctx ∧
      Fine { z with ctx := { ctx with writeInProgress := false }.closePending, stack := rest } := by
  have refs := fine.refs
  rw [stack, count_cons_of_ne (by simp)] at refs
  have none_ := fine.error (fine.failed none (stack ▸ mem_cons_self)).1
  refine ⟨{ z.ctx with refs := rest.count .called }, ?_, ?_⟩
  · cases writing : z.ctx.writeInProgress with
    | true => simp [writing, Context.unref, refs]
    | false =>
      rw [writing] at refs
      exact congrArg (fun n => Except.ok { z.ctx with refs := n })
        (refs.trans (Nat.zero_add _))
  have popped : Fine { z with
      ctx := { z.ctx with refs := rest.count .called, writeInProgress := false },
      stack := rest } :=
    fine.pop stack ⟨rfl, rfl⟩ rfl (fun work => absurd none_ work) nofun
      (Nat.zero_add _).symm
  exact popped.closePending

theorem return_ (fine : Fine z)
    (careful : ∀ owner, z.stack.head? = some (.pushed owner true) → z.closed = false) :
    ∃ z', z.return_ = .ok z' ∧ Fine z' := by
  rw [Zlib.return_]
  cases stack : z.stack with
  | nil => exact ⟨z, rfl, fine⟩
  | cons frame rest =>
    rw [stack] at careful
    cases frame with
    | pushed owner full =>
      exact fine.return_pushed stack fun some_ => careful owner (by rw [some_]; rfl)
    | called =>
      obtain ⟨ctx, unrefd, fine'⟩ := fine.return_called stack
      refine ⟨_, ?_, fine'⟩
      rw [unrefd]
      rfl
    | failed dictionaryFails =>
      obtain rfl := (fine.failed dictionaryFails (stack ▸ mem_cons_self)).2
      obtain ⟨ctx, unrefd, fine'⟩ := fine.return_failed stack
      rw [unrefd]
      exact ⟨_, rfl, fine'⟩

end Fine

/-! ## Runs -/

/-- The calls leave the slips alone: no chunk is passed in behind `'prefinish'`, `reset` is called
neither behind `close` nor behind an error and does not fail itself, `close` is not called first
behind an error, and it is not called while a full window is filled or pushed. -/
def Careful (z : Zlib) : Event → Prop
  | .write => z.prefinished = false
  | .reset resetFails dictionaryFails =>
    z.closed = false ∧ z.hadError = false ∧ resetFails = none ∧ dictionaryFails = none
  | .close => z.closed = true ∨ z.hadError = false
  | .after result => result = .full → z.closed = false
  | .return_ => ∀ owner, z.stack.head? = some (.pushed owner true) → z.closed = false
  | .read _ | .prefinish | .end_ | .ended => True

namespace Fine

section

variable (fine : Fine z)
include fine

theorem write (careful : z.prefinished = false) :
    Fine { z with writing := true, holdsChunk := true } :=
  { fine with
    holds := rfl
    transforming := fun _ => rfl
    prefinished := fun some_ => absurd some_ (by simp [careful])
    ready := fun owner busy => by
      have before := fine.ready owner busy
      cases owner with
      | chunk => exact before
      | flush => exact before }

/-- No chunk is begun behind an error. -/
theorem noError_of_starts (holds : z.holdsChunk = true) (idle : z.transforming = false) :
    z.hadError = false := by
  refine Bool.eq_false_iff.mpr fun failed => ?_
  rcases fine.stuck failed with transforming | prefinished
  · exact absurd transforming (by simp [idle])
  · have still := fine.prefinished prefinished
    exact absurd (fine.holds.symm.trans holds) (by simp [still])

/-- `_flush` is not called behind an error. -/
theorem noError_of_prefinish (idle : z.writing = false) (first : z.prefinished = false) :
    z.hadError = false := by
  refine Bool.eq_false_iff.mpr fun failed => ?_
  rcases fine.stuck failed with transforming | prefinished
  · exact absurd (fine.transforming transforming) (by simp [idle])
  · exact absurd prefinished (by simp [first])

theorem read (isBuffer : Bool) : ∃ z', z.read isBuffer = .ok z' ∧ Fine z' := by
  rw [Zlib.read]
  split_ifs with starts
  · rw [Bool.and_eq_true, Bool.not_eq_true'] at starts
    obtain ⟨holds, idle⟩ := starts
    have noError := fine.noError_of_starts holds idle
    have writing : z.writing = true := fine.holds.symm.trans holds
    have none_ : ∀ owner, ¬Busy z owner := by
      intro owner busy
      have ready := fine.ready owner busy
      cases owner with
      | chunk => exact absurd ready (by simp [Ready, idle])
      | flush => exact absurd (fine.prefinished ready) (by simp [writing])
    have fine' : Fine { z with transforming := true } :=
      { fine with
        stuck := fun _ => .inl rfl
        transforming := fun _ => writing
        ready := fun owner busy => absurd busy (none_ owner) }
    have ready : Ready { z with transforming := true } .chunk := rfl
    exact fine'.transform noError none_ ready isBuffer
  · exact ⟨z, rfl, fine⟩

theorem prefinish (idle : z.writing = false) (first : z.prefinished = false) :
    ∃ z', { z with prefinished := true }.transform .flush true = .ok z' ∧ Fine z' := by
  have noError := fine.noError_of_prefinish idle first
  have none_ : ∀ owner, ¬Busy z owner := by
    intro owner busy
    have ready := fine.ready owner busy
    cases owner with
    | chunk => exact absurd (fine.transforming ready) (by simp [idle])
    | flush => exact absurd ready (by simp [Ready, first])
  have fine' : Fine { z with prefinished := true } :=
    { fine with
      stuck := fun _ => .inr rfl
      prefinished := fun _ => idle
      ready := fun owner busy => absurd busy (none_ owner) }
  have ready : Ready { z with prefinished := true } .flush := rfl
  exact fine'.transform noError none_ ready true

theorem reset (open_ : z.closed = false) (noError : z.hadError = false) :
    z.reset none none = .ok z := by
  have handle : z.hasHandle = true := by rw [fine.handle, noError]; rfl
  rw [Zlib.reset.eq_def, if_neg (by simp [open_]), if_pos handle]

theorem close (careful : z.closed = true ∨ z.hadError = false) :
    ∃ z', z.close = .ok z' ∧ Fine z' := by
  rw [Zlib.close]
  split_ifs with closed handle
  · exact ⟨z, rfl, fine⟩
  · have fine' : Fine { z with closed := true } := { fine with closed := fun _ => rfl }
    exact ⟨_, rfl, fine'.closeContext rfl⟩
  · exact absurd (fine.handle.trans (by rw [careful.resolve_left closed]; rfl)) handle

/-- **A careful call succeeds**, without a null handle, and keeps what holds between events. -/
theorem step {event : Event} (possible : Possible z event)
    (careful : Careful z event) : ∃ z', step z event = .ok z' ∧ Fine z' := by
  cases event with
  | write => exact ⟨_, rfl, fine.write careful⟩
  | read isBuffer => exact fine.read isBuffer
  | end_ => exact ⟨_, rfl, { fine with ready := fine.ready }⟩
  | prefinish => exact fine.prefinish possible.2.1 possible.2.2
  | ended => exact ⟨_, rfl, { fine with }⟩
  | reset =>
    obtain ⟨open_, noError, rfl, rfl⟩ := careful
    exact ⟨z, fine.reset open_ noError, fine⟩
  | close => exact fine.close careful
  | after result => exact fine.after possible.1 possible.2 result
  | return_ => exact fine.return_ careful

end

end Fine

/-- A call does nothing, or reports an error by its callback or an event. -/
structure Refused (z z' : Zlib) : Prop where
  ctx : z'.ctx = z.ctx
  reports : z'.reports = z.reports ∨ ∃ message,
    z'.reports = z.reports ++ [.write message] ∨ z'.reports = z.reports ++ [.event message]

/-- Is an event a call, or part of one? -/
def Event.isCall : Event → Bool
  | .after _ | .return_ => false
  | _ => true

theorem transform_closed (closed : z.closed = true) (owner : Owner) (isBuffer : Bool) :
    ∃ message, z.transform owner isBuffer = z.cb owner (some message) := by
  rw [transform]
  split_ifs
  · exact ⟨_, rfl⟩
  · exact ⟨_, rfl⟩

/-- A call behind `close` or an error is refused. -/
theorem Fine.refused (fine : Fine z) (dead : z.closed = true ∨ z.hadError = true) {event : Event}
    (call : event.isCall = true) (possible : Possible z event) (careful : Careful z event)
    (stepped : Zlib.step z event = .ok z') : Refused z z' := by
  have closed (noError : z.hadError = false) : z.closed = true :=
    dead.resolve_right (Bool.eq_false_iff.mp noError)
  cases event with
  | after => cases call
  | return_ => cases call
  | write | end_ | ended =>
    obtain rfl := Except.ok.inj stepped
    exact ⟨rfl, .inl rfl⟩
  | close =>
    have same : z.close = .ok z := if_pos (careful.elim id closed)
    obtain rfl := Except.ok.inj (same.symm.trans stepped)
    exact ⟨rfl, .inl rfl⟩
  | reset =>
    exact absurd (closed careful.2.1) (Bool.eq_false_iff.mp careful.1)
  | prefinish =>
    have noError := fine.noError_of_prefinish possible.2.1 possible.2.2
    obtain ⟨message, called⟩ := transform_closed (z := { z with prefinished := true })
      (closed noError) .flush true
    obtain rfl := Except.ok.inj (called.symm.trans stepped)
    exact ⟨rfl, .inr ⟨message, .inr rfl⟩⟩
  | read isBuffer =>
    by_cases starts : (z.holdsChunk && !z.transforming) = true
    · have read : z.read isBuffer = { z with transforming := true }.transform .chunk isBuffer :=
        if_pos starts
      rw [Bool.and_eq_true, Bool.not_eq_true'] at starts
      have noError := fine.noError_of_starts starts.1 starts.2
      obtain ⟨message, called⟩ := transform_closed (z := { z with transforming := true })
        (closed noError) .chunk isBuffer
      obtain rfl := Except.ok.inj ((read.trans called).symm.trans stepped)
      rw [starts.1]
      exact ⟨rfl, .inr ⟨message, .inl rfl⟩⟩
    have same : z.read isBuffer = .ok z := if_neg starts
    obtain rfl := Except.ok.inj (same.symm.trans stepped)
    exact ⟨rfl, .inl rfl⟩

/-- A run that leaves the slips alone -/
abbrev CarefulRun : List Event → Zlib → Prop :=
  Steps (fun z event z' => Careful z event ∧ Next z event z') new

/-- It holds wherever a run of such calls leads. -/
theorem fine_of_run (run : CarefulRun events z) : Fine z := by
  refine run.invariant Fine fine_new ?_
  rintro z z' event fine ⟨careful, possible, stepped⟩
  obtain ⟨z'', stepped', fine'⟩ := fine.step possible careful
  exact Except.ok.inj (stepped'.symm.trans stepped) ▸ fine'

/-- What may happen at an event: no use of `_handle` fails and no `CHECK`, and a call behind
`close` or an error does nothing or reports an error. -/
def Safe (z : Zlib) (event : Event) : Prop :=
  ∃ z', step z event = .ok z' ∧
    (event.isCall = true → z.closed = true ∨ z.hadError = true → Refused z z')

/-- **The lifecycle** of a `Zlib` whose calls leave the slips alone: whatever happens next is safe.
-/
theorem lifecycle {events : List Event} (run : CarefulRun events z) (event : Event)
    (possible : Possible z event) (careful : Careful z event) : Safe z event := by
  have fine := fine_of_run run
  obtain ⟨z', stepped, -⟩ := fine.step possible careful
  exact ⟨z', stepped, fun call dead => fine.refused dead call possible careful stepped⟩

theorem extend (run : CarefulRun events z) (event : Event)
    (careful : Careful z event) (possible : Possible z event) (stepped : step z event = .ok z') :
    CarefulRun (events ++ [event]) z' := .tail run ⟨careful, possible, stepped⟩

/-- A chunk is being written as the stream is closed, and its output fits; then the context is
closed and the next chunk is refused. A native write fails, and its chunk is not begun again. -/
theorem lifecycle_closedLate :
    (∃ z, CarefulRun [.write, .read true, .close, .after .output, .return_, .return_, .write] z ∧
      z.ctx.finalized = true ∧ Safe z (.read true)) ∧
    ∃ z, CarefulRun [.write, .read true, .after (.error "invalid block type"), .return_] z ∧
      z.hasHandle = false ∧ Safe z (.read true) := by
  have taken : CarefulRun [.write] _ :=
    extend .refl .write rfl ⟨rfl, nofun⟩ rfl
  have started : CarefulRun [.write, .read true] _ := extend taken (.read true) trivial trivial rfl
  constructor
  · have pending : CarefulRun [.write, .read true, .close] _ :=
      extend started .close (.inr rfl) trivial rfl
    have written : CarefulRun [.write, .read true, .close, .after .output] _ :=
      extend pending (.after .output) nofun ⟨rfl, some_ne_none _⟩ rfl
    have pushed : CarefulRun [.write, .read true, .close, .after .output, .return_] _ :=
      extend written .return_ nofun (cons_ne_nil _ _) rfl
    have closed : CarefulRun [.write, .read true, .close, .after .output, .return_, .return_] _ :=
      extend pushed .return_ nofun (cons_ne_nil _ _) rfl
    have run : CarefulRun
        [.write, .read true, .close, .after .output, .return_, .return_, .write] _ :=
      extend closed .write rfl ⟨rfl, nofun⟩ rfl
    exact ⟨_, run, rfl, lifecycle run (.read true) trivial trivial⟩
  · have failed : CarefulRun [.write, .read true, .after (.error "invalid block type")] _ :=
      extend started (.after (.error "invalid block type")) nofun
        ⟨rfl, some_ne_none _⟩ rfl
    have run : CarefulRun [.write, .read true, .after (.error "invalid block type"), .return_] _ :=
      extend failed .return_ nofun (cons_ne_nil _ _) rfl
    exact ⟨_, run, rfl, lifecycle run (.read true) trivial trivial⟩

/-- A full window aborts the process if `close` was called while it was filled, and so does a
listener of `'finish'` that writes while `end` is running; behind an error `close` and `reset` use
`null`, and behind `close` `reset` throws. -/
theorem lifecycle_broken : (¬∀ events z, Steps Next new events z → ∀ event, Possible z event →
      Safe z event) ∧
    (∃ z, Steps Next new [.write, .read true, .close, .after .full] z ∧ Possible z .return_ ∧
      step z .return_ = .error (.check "close is pending")) ∧
    (∃ z, Steps Next new [.end_, .prefinish, .write] z ∧ Possible z (.read true) ∧
      step z (.read true) = .error (.check "write already in progress")) ∧
    (∃ z, Steps Next new [.write, .read true, .after (.error "invalid block type")] z ∧
      step z .close = .error .nullHandle ∧ step z (.reset none none) = .error .nullHandle) ∧
    ∃ z, Steps Next new [.close] z ∧ ¬Safe z (.reset none none) := by
  have taken : Steps Next new [.write] _ := .tail .refl ⟨⟨rfl, nofun⟩, rfl⟩
  have started : Steps Next new [.write, .read true] _ := .tail taken ⟨trivial, rfl⟩
  have pending : Steps Next new [.write, .read true, .close] _ := .tail started ⟨trivial, rfl⟩
  have full : Steps Next new [.write, .read true, .close, .after .full] _ :=
    .tail pending ⟨⟨rfl, some_ne_none _⟩, rfl⟩
  refine ⟨fun all => ?_, ⟨_, full, cons_ne_nil _ _, rfl⟩, ?_, ?_, ?_⟩
  · obtain ⟨z', stepped, -⟩ := all _ _ full .return_ (cons_ne_nil _ _)
    cases stepped
  · have ending : Steps Next new [.end_] _ := .tail .refl ⟨trivial, rfl⟩
    have flushing : Steps Next new [.end_, .prefinish] _ := .tail ending ⟨⟨rfl, rfl, rfl⟩, rfl⟩
    have late : Steps Next new [.end_, .prefinish, .write] _ :=
      .tail flushing ⟨⟨rfl, fun _ => rfl⟩, rfl⟩
    exact ⟨_, late, trivial, rfl⟩
  · have failed : Steps Next new [.write, .read true, .after (.error "invalid block type")] _ :=
      .tail started ⟨⟨rfl, some_ne_none _⟩, rfl⟩
    exact ⟨_, failed, rfl, rfl⟩
  have closed : Steps Next new [.close] _ := .tail .refl ⟨trivial, rfl⟩
  refine ⟨_, closed, fun safe => ?_⟩
  obtain ⟨z', reset, refused⟩ := safe
  obtain rfl := Except.ok.inj reset
  rcases (refused rfl (.inl rfl)).reports with none_ | ⟨message, written | event⟩
  · cases none_
  · cases written
  · cases event

end IoJs.Zlib
