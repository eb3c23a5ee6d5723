import Mathlib.Logic.Relation

/-!
# Runs of a machine under a policy

A machine is a partial step function: what an action does to a state, where the
action is possible at all. A policy says which of the possible actions an
environment takes. A run is a finite sequence of allowed, possible actions.
-/

namespace IoJs.Library

variable {State Action : Type*}

/-- The states reached from `start` by possible actions that the policy allows. -/
inductive Run (step : State → Action → Option State) (allowed : State → Action → Prop)
    (start : State) : State → Prop where
  | refl : Run step allowed start start
  | tail {s s' : State} {a : Action} : Run step allowed start s → allowed s a →
      step s a = some s' → Run step allowed start s'

variable {step : State → Action → Option State} {allowed : State → Action → Prop}
  {start s : State}

/-- What holds at the start and is kept by each allowed step holds wherever a run leads. -/
theorem Run.invariant (Inv : State → Prop) (initial : Inv start)
    (preserved : ∀ {s s' : State} {a : Action}, Inv s → allowed s a → step s a = some s' → Inv s')
    (run : Run step allowed start s) : Inv s := by
  induction run with
  | refl => exact initial
  | tail _ permitted stepped ih => exact preserved ih permitted stepped

theorem Run.trans {s' : State} (first : Run step allowed start s) (second : Run step allowed s s') :
    Run step allowed start s' := by
  induction second with
  | refl => exact first
  | tail _ permitted stepped ih => exact .tail ih permitted stepped

theorem Run.mono {laxer : State → Action → Prop}
    (weaken : ∀ {s : State} {a : Action}, allowed s a → laxer s a)
    (run : Run step allowed start s) : Run step laxer start s := by
  induction run with
  | refl => exact .refl
  | tail _ permitted stepped ih => exact .tail ih (weaken permitted) stepped

/-- The state after a list of actions, if each is possible and allowed. -/
def exec (step : State → Action → Option State) (allowed : State → Action → Prop)
    [∀ s a, Decidable (allowed s a)] : State → List Action → Option State
  | s, [] => some s
  | s, a :: rest =>
    if allowed s a then
      match step s a with
      | none => none
      | some s' => exec step allowed s' rest
    else none

theorem Run.of_exec [∀ s a, Decidable (allowed s a)] :
    ∀ {actions : List Action} {s s' : State}, Run step allowed start s →
      exec step allowed s actions = some s' → Run step allowed start s' := by
  intro actions
  induction actions with
  | nil =>
    intro s s' run done
    simp only [exec, Option.some.injEq] at done
    exact done ▸ run
  | cons a rest ih =>
    intro s s' run done
    simp only [exec] at done
    split at done
    · rename_i permitted
      cases stepped : step s a with
      | none => rw [stepped] at done; cases done
      | some =>
        rw [stepped] at done
        exact ih (.tail run permitted stepped) done
    · cases done

theorem Run.exists_of_exec (step : State → Action → Option State)
    (allowed : State → Action → Prop) [∀ s a, Decidable (allowed s a)] (start : State)
    (P : State → Prop) [DecidablePred P] (actions : List Action)
    (evaluated : (exec step allowed start actions).any (fun s => decide (P s)) = true) :
    ∃ s, Run step allowed start s ∧ P s := by
  obtain ⟨s, done, holds⟩ := (Option.any_eq_true _ _).mp evaluated
  exact ⟨s, .of_exec .refl done, of_decide_eq_true holds⟩

end IoJs.Library
