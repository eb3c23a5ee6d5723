import IoJs.Stream.Writable.Effect

/-!
# When no request is lost

`clearBuffer` forgets what it finds in the list when `_writev` returns: the tail of
the list is set to null before the call, the head after it. A request that is
buffered in between is lost, and so is every later one that is chained to it.
-/

namespace IoJs.Stream.Writable

open IoJs.Library

variable {Obj : Type}
variable {c c' : Config Obj} {a : Action Obj} {env : Environment} {rest : List (Frame Obj)}

/-- A chunk is accepted while `clearBuffer` has called `_writev`. -/
def WritesIntoWritev (c : Config Obj) (a : Action Obj) : Prop :=
  a.accepts c.state = true ∧ clears c.stack = [.fast]

instance (c : Config Obj) (a : Action Obj) : Decidable (WritesIntoWritev c a) :=
  inferInstanceAs (Decidable (_ ∧ _))

/-- Where nothing is buffered, `lastBufferedRequest` is null. -/
structure QueueView.Tidy (v : QueueView Obj) : Prop where
  empty : v.clears = [] → v.first = none → v.last = none
  fast : v.clears = [.fast] → v.last = none

namespace QueueView.Tidy

variable {v : QueueView Obj} {rest : List Clear}

theorem buffer (tidy : v.Tidy) (request : Request Obj) (slow : v.clears ≠ [.fast]) :
    (v.buffer request).Tidy where
  empty idle first := by
    simp only [QueueView.buffer] at idle first
    split at first
    · rename_i some
      rw [tidy.empty idle first] at some
      cases some
    · cases first
  fast fast := absurd fast slow

theorem of_fast (clears : v.clears = .fast :: rest) (last : v.last = none) : v.Tidy where
  empty idle _ := by rw [clears] at idle; cases idle
  fast _ := last

theorem of_slow {entry : Nat} (clears : v.clears = .slow entry :: rest) : v.Tidy where
  empty idle _ := by rw [clears] at idle; cases idle
  fast fast := by rw [clears] at fast; cases fast

theorem endFast (tidy : v.Tidy) (fast : v.clears = [.fast]) : v.pop.endFast.Tidy where
  empty _ _ := tidy.fast fast
  fast contra := by simp [QueueView.pop, QueueView.endFast, fast] at contra

theorem endSlow (entry : Option Nat) {e : Nat} (slow : v.clears = [.slow e]) :
    (v.pop.endSlow entry).Tidy where
  empty _ first := by
    simp only [QueueView.endSlow] at first
    simp [QueueView.endSlow, first]
  fast contra := by simp [QueueView.pop, QueueView.endSlow, slow] at contra

end QueueView.Tidy

theorem lossless_of_tidy (tidy : c.queueView.Tidy)
    (polite : ¬ WritesIntoWritev c a) {move : Ledger.Move (Request Obj)} (known : c.MoveOf a move) :
    move.Lossless := by
  cases move with
  | drop request =>
    rcases known.drop request rfl with fast | ⟨idle, empty, last⟩
    · exact polite ⟨known.accepts request rfl, fast⟩
    · exact last (tidy.empty idle empty)
  | _ => trivial

section

variable (valid : c.queueView.Valid)
include valid

theorem Effect.tidy (tidy : c.queueView.Tidy) (polite : ¬ WritesIntoWritev c a)
    (moved : Effect env c a c') : c'.queueView.Tidy := by
  cases moved with
  | keeps kept => rw [kept.view]; exact tidy
  | cork => exact tidy
  | buffered calls request len accepts =>
    rw [queueView_buffered calls]
    exact tidy.buffer request fun fast => polite ⟨accepts, fast⟩
  | direct calls =>
    rw [queueView_direct calls]
    exact ⟨tidy.empty, tidy.fast⟩
  | opened prepared => rw [queueView_opened prepared]; exact tidy
  | fast =>
    exact .of_fast rfl rfl
  | slow =>
    exact .of_slow rfl
  | failed =>
    rw [(Keeps.onwriteError _ _ _).view, queueView_settle]
    exact tidy
  | clearFast rest top =>
    have fast := clears_top top rfl
    obtain rest' : clears rest = [] := by
      have situation := valid.situation
      cases below : clears rest with
      | nil => rfl
      | cons => simp [QueueView.Situation, fast, below] at situation
    have ended := tidy.endFast (by rw [fast, rest'])
    rw [← queueView_pop top rfl] at ended
    exact ended
  | clearSlow entry rest top =>
    have slow := clears_top top rfl
    have alone := (valid.slow slow).1
    have ended := QueueView.Tidy.endSlow ((c.heap[entry]?).bind WriteReq.next)
      (slow.trans (congrArg _ alone))
    rw [← queueView_pop top rfl] at ended
    exact ended
  | clearNext =>
    exact .of_slow rfl

theorem waiting_endFast (top : c.stack = .clearFast :: rest) :
    Config.waiting ({ c with stack := rest }.set fun s =>
      { s with bufferedRequest := none, bufferProcessing := false }) = c.waiting := by
  have ended := (valid.endFast (clears_top top rfl)).2
  rw [← queueView_pop top rfl] at ended
  exact congrArg Ledger.waiting ended

theorem waiting_endSlow {entry : Nat} (top : c.stack = .clearSlow entry :: rest) :
    (clearSlowEnd { c with stack := rest } ((c.heap[entry]?).bind WriteReq.next)).waiting =
      c.waiting := by
  have ended := (valid.endSlow (clears_top top rfl)).2
  rw [← queueView_pop top rfl] at ended
  exact congrArg Ledger.waiting ended

end

/-- What holds of the queue in every run that writes nothing into `_writev`. -/
structure TidyInv (c : Config Obj) : Prop extends QueueInv c where
  tidy : c.queueView.Tidy

theorem TidyInv.new (options : Options) : TidyInv (Config.new options : Config Obj) :=
  ⟨.new options, ⟨fun _ _ => rfl, nofun⟩⟩

/-- One step that writes nothing into `_writev` keeps the queue tidy. -/
theorem TidyInv.step (inv : TidyInv c)
    (polite : ¬ WritesIntoWritev c a) (stepped : step env c a = some c') : TidyInv c' :=
  ⟨inv.toQueueInv.step stepped,
    ((transition_of_step stepped).effect inv.valid).tidy inv.valid inv.tidy polite⟩

theorem TidyInv.waiting_buffered {b : Config Obj} (inv : TidyInv c)
    (polite : ¬ WritesIntoWritev c a) (accepts : a.accepts c.state = true) (calls : Calls c a b)
    (request : Request Obj) (len : Nat) :
    (bufferRequest (accept b.charge request len) request).waiting = c.waiting ++ [request] := by
  rw [Config.waiting, queueView_buffered calls]
  obtain ⟨-, enqueued | ⟨-, fast | ⟨idle, first, last⟩⟩⟩ := inv.valid.buffer request
  · exact congrArg Ledger.waiting enqueued
  · exact absurd ⟨accepts, fast⟩ polite
  · exact absurd (inv.tidy.empty idle first) last

end IoJs.Stream.Writable
