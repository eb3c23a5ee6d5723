import IoJs.Stream.Writable.Effect

/-!
# Order of hand-over when writes fail

`onwrite` clears `writing` for a failed hand-over as for a successful one, but
only the successful one goes on to `clearBuffer`. A stream can therefore be
neither writing nor corked while requests are buffered, and the next `write()`
then passes its chunk straight to `_write`, in front of them
(`overtaking_after_error`).
-/

namespace IoJs.Stream.Writable

open IoJs.Library List

variable {Obj : Type} {c : Config Obj} {a : Action Obj}

/-- The earlier request, in the order of acceptance. -/
def Request.Before (r r' : Request Obj) : Prop := r.id < r'.id

instance : Std.Antisymm (@Request.Before Obj) where
  antisymm _ _ before after := absurd (Nat.lt_trans before after) (Nat.lt_irrefl _)

/-- A `write()` is accepted by a stream that is neither writing nor corked, while
a buffered request has not been handed over. -/
def Overtakes (c : Config Obj) (a : Action Obj) : Prop :=
  a.accepts c.state = true ∧ c.state.writing = false ∧ c.state.corked = 0 ∧
    ∃ node ∈ c.getBuffer, node.request ∉ handed c.trace

instance [DecidableEq Obj] (c : Config Obj) (a : Action Obj) : Decidable (Overtakes c a) :=
  inferInstanceAs (Decidable (_ ∧ _ ∧ _ ∧ ∃ node ∈ c.getBuffer, node.request ∉ handed c.trace))

theorem orderly_of_not_overtakes (inv : QueueInv c)
    (polite : ¬ Overtakes c a) {move : Ledger.Move (Request Obj)} (known : c.MoveOf a move) :
    move.Orderly c.ledger := by
  cases move with
  | direct request =>
    obtain ⟨idle, uncorked⟩ := known.direct request rfl
    refine eq_nil_iff_forall_not_mem.mpr fun waiting waits => polite ?_
    obtain ⟨node, buffered, same⟩ := List.mem_map.mp (QueueView.waiting_subset inv.valid waits)
    refine ⟨known.accepts request rfl, idle, uncorked, node, buffered, fun handed => ?_⟩
    have distinct := nodup_append.mp (inv.accounted.nodup inv.numbered.nodup)
    exact distinct.2.2 _ handed _ waits same
  | _ => trivial

/-- A step that overtakes nothing keeps the order of the ledger. -/
theorem sorted_step {env : Environment} {c' : Config Obj} (inv : QueueInv c)
    (sorted : c.ledger.Sorted Request.Before) (polite : ¬ Overtakes c a)
    (stepped : step env c a = some c') : c'.ledger.Sorted Request.Before := by
  obtain ⟨-, move, known, after⟩ := step_ledger inv.valid stepped
  rw [after]
  refine sorted.after (orderly_of_not_overtakes inv polite known) ?_
  intro request taken old member
  have bound := inv.numbered.id_lt (inv.accounted.mem member)
  rw [Request.Before, known.number request taken]
  exact bound

theorem Numbered.pairwise {requests : List (Request Obj)} (numbered : Numbered requests) :
    requests.Pairwise Request.Before := by
  have ordered : (requests.map Request.id).Pairwise (· < ·) := by
    rw [numbered]
    exact pairwise_lt_range
  exact (pairwise_map (f := Request.id) (R := (· < ·))).mp ordered

/-- **In every run in which no `write()` overtakes, chunks are handed over in the
order of acceptance**, each at most once, whichever completions fail. -/
theorem handed_sublist_accepted {env : Environment} {options : Options} {c : Config Obj}
    (run : Run (step env) (fun c a => ¬ Overtakes c a) (Config.new options) c) :
    (handed c.trace).Sublist (accepted c.trace) := by
  have both : QueueInv c ∧ c.ledger.Sorted Request.Before := by
    refine run.invariant (fun c => QueueInv c ∧ c.ledger.Sorted Request.Before)
      ⟨.new options, List.Pairwise.nil⟩ ?_
    rintro s s' a ⟨inv, sorted⟩ polite stepped
    exact ⟨inv.step stepped, sorted_step inv sorted polite stepped⟩
  obtain ⟨inv, sorted⟩ := both
  have counted : (handed c.trace).Subperm (accepted c.trace) :=
    (sublist_append_left _ _).subperm.trans inv.accounted
  exact sublist_of_subperm_of_pairwise counted (pairwise_append.mp sorted).1
    inv.numbered.pairwise

/-! ## The history that breaks the order -/

/-- The first of two writes fails while the second one is buffered. -/
def failureHistory : List (Action Empty) :=
  [.write (byte 1) none, .ret, .resume,      -- handed over, completes later
   .write (byte 2) none,                     -- buffered
   .complete 0 true, .ret, .resume, .ret]    -- the callback and the listeners of 'error'

/-- After a failure the order holds where the stream is corked before the next write. -/
theorem handed_sublist_accepted_after_error : ∃ c : Config Empty,
    (handed c.trace).map Request.id = [0, 1] ∧ c.state.errorEmitted = true ∧
      (handed c.trace).Sublist (accepted c.trace) := by
  obtain ⟨c, run, handed, failed⟩ := Run.exists_of_exec (step plainEnvironment)
    (fun c a => ¬ Overtakes c a) (Config.new {})
    (fun c => (handed c.trace).map Request.id = [0, 1] ∧ c.state.errorEmitted = true)
    (failureHistory ++ [.cork, .write (byte 3) none, .uncork]) (by decide)
  exact ⟨c, handed, failed, handed_sublist_accepted run⟩

/-- **A chunk written after an error overtakes the one buffered before it.** -/
theorem overtaking_after_error :
    ∃ c : Config Empty, Run (step plainEnvironment) (fun _ _ => True) (Config.new {}) c ∧
      ¬ (handed c.trace).Sublist (accepted c.trace) :=
  Run.exists_of_exec _ _ _ _
    (failureHistory ++ [.write (byte 3) none, .ret, .resume, .complete 0 false]) (by decide)

end IoJs.Stream.Writable
