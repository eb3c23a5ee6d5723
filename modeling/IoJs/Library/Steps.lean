import IoJs.Library.Runs

/-!
# Histories of steps

`Steps next start actions s`: the actions, one after the other, lead from `start` to `s`. A machine
simulates another if each of its steps is, seen through an abstraction, a step of the other by the
same action; then so are its histories (`Steps.simulate`). The machine may need an invariant for
that, and its steps have to keep it.
-/

namespace IoJs.Library

variable {State Action : Type*}

/-- What some actions can lead to -/
inductive Steps (next : State → Action → State → Prop) (start : State) :
    List Action → State → Prop where
  | refl : Steps next start [] start
  | tail {actions : List Action} {s s' : State} {action : Action} :
      Steps next start actions s → next s action s' → Steps next start (actions ++ [action]) s'

/-- The steps of a machine that a policy allows -/
def Permitted (step : State → Action → Option State) (allowed : State → Action → Prop) (s : State)
    (action : Action) (s' : State) : Prop :=
  allowed s action ∧ step s action = some s'

variable {next : State → Action → State → Prop} {start s : State} {actions : List Action}

/-- What holds at the start and is kept by each step holds behind any actions. -/
theorem Steps.invariant (Inv : State → Prop) (initial : Inv start)
    (preserved : ∀ {s s' action}, Inv s → next s action s' → Inv s')
    (steps : Steps next start actions s) : Inv s := by
  induction steps with
  | refl => exact initial
  | tail _ stepped ih => exact preserved ih stepped

/-- **Simulation.** What keeps the invariant and is a step of the other machine, seen through the
abstraction, has the histories of the other machine. -/
theorem Steps.simulate {State' : Type*} {next' : State' → Action → State' → Prop}
    (abstraction : State → State') (Inv : State → Prop) (initial : Inv start)
    (preserved : ∀ {s s' action}, Inv s → next s action s' → Inv s')
    (simulated : ∀ {s s' action}, Inv s → next s action s' →
      next' (abstraction s) action (abstraction s'))
    (steps : Steps next start actions s) :
    Steps next' (abstraction start) actions (abstraction s) := by
  induction steps with
  | refl => exact .refl
  | tail steps stepped ih =>
    exact .tail ih (simulated (steps.invariant Inv initial preserved) stepped)

theorem Steps.of_exec {step : State → Action → Option State} {allowed : State → Action → Prop}
    [∀ s a, Decidable (allowed s a)] :
    ∀ {rest before : List Action} {s s' : State},
      Steps (Permitted step allowed) start before s → exec step allowed s rest = some s' →
        Steps (Permitted step allowed) start (before ++ rest) s' := by
  intro rest
  induction rest with
  | nil =>
    intro before s s' steps done
    simp only [exec, Option.some.injEq] at done
    rw [List.append_nil]
    exact done ▸ steps
  | cons action rest ih =>
    intro before s s' steps done
    simp only [exec] at done
    split at done
    · rename_i permitted
      cases stepped : step s action with
      | none => rw [stepped] at done; cases done
      | some =>
        rw [stepped] at done
        have more := ih (.tail steps ⟨permitted, stepped⟩) done
        rwa [List.append_assoc, List.singleton_append] at more
    · cases done

end IoJs.Library
