import Mathlib.Tactic.Common

/-!
# Machines that return

A machine makes one turn after the other until it has a result, if it ever has one. Two machines
return the same if their states can be kept related, where each turn of the first is matched by some
turns of the second, one at least (`returns_iff_of_simulation`).
-/

namespace IoJs.Library

variable {S T R : Type*}

/-- Some turns, fewer if there is a result before -/
def after (turn : S → S ⊕ R) : Nat → S → S ⊕ R
  | 0, s => .inl s
  | n + 1, s =>
    match turn s with
    | .inl s' => after turn n s'
    | .inr r => .inr r

/-- The machine has this result, sooner or later. -/
def Returns (turn : S → S ⊕ R) (s : S) (r : R) : Prop := ∃ n, after turn n s = .inr r

/-- The same for what may have ended before the first turn -/
def Ends (turn : S → S ⊕ R) : S ⊕ R → R → Prop
  | .inl s, r => Returns turn s r
  | .inr r', r => r' = r

variable {turn : S → S ⊕ R} {turn' : T → T ⊕ R} {s s' : S} {r r' : R} {m n : Nat}

theorem after_succ_inl (turned : turn s = .inl s') (n : Nat) :
    after turn (n + 1) s = after turn n s' := by
  rw [after, turned]

theorem after_succ_inr (done : turn s = .inr r) (n : Nat) : after turn (n + 1) s = .inr r := by
  rw [after, done]

theorem after_one (turn : S → S ⊕ R) (s : S) : after turn 1 s = turn s := by
  rw [after]
  cases turn s with
  | inl s' => rfl
  | inr r => rfl

theorem after_add_inl (reached : after turn m s = .inl s') (n : Nat) :
    after turn (m + n) s = after turn n s' := by
  induction m generalizing s with
  | zero =>
    obtain rfl := Sum.inl.inj reached
    rw [Nat.zero_add]
  | succ m ih =>
    rw [Nat.succ_add]
    cases turned : turn s with
    | inl s'' =>
      rw [after_succ_inl turned] at reached ⊢
      exact ih reached
    | inr r =>
      rw [after_succ_inr turned] at reached
      cases reached

theorem after_add_inr (done : after turn m s = .inr r) (n : Nat) :
    after turn (m + n) s = .inr r := by
  induction m generalizing s with
  | zero => cases done
  | succ m ih =>
    rw [Nat.succ_add]
    cases turned : turn s with
    | inl s' =>
      rw [after_succ_inl turned] at done ⊢
      exact ih done
    | inr r' =>
      rw [after_succ_inr turned] at done ⊢
      exact done

theorem after_le_inr (done : after turn m s = .inr r) (le : m ≤ n) : after turn n s = .inr r := by
  obtain ⟨more, rfl⟩ := Nat.exists_eq_add_of_le le
  exact after_add_inr done more

theorem Returns.unique (returns : Returns turn s r) (returns' : Returns turn s r') : r = r' := by
  obtain ⟨m, done⟩ := returns
  obtain ⟨n, done'⟩ := returns'
  have first := after_le_inr done (Nat.le_add_right m n)
  have second := after_le_inr done' (Nat.le_add_left n m)
  exact Sum.inr.inj (first.symm.trans second)

theorem Returns.done (done : turn s = .inr r) : Returns turn s r := ⟨1, after_succ_inr done 0⟩

theorem returns_iff_of_after (reached : after turn m s = .inl s') :
    Returns turn s r ↔ Returns turn s' r := by
  constructor
  · rintro ⟨n, done⟩
    have later := after_le_inr done (Nat.le_add_left n m)
    rw [after_add_inl reached] at later
    exact ⟨n, later⟩
  rintro ⟨n, done⟩
  exact ⟨m + n, (after_add_inl reached n).trans done⟩

section Simulation

variable {R' : Type*} {turn' : T → T ⊕ R'} {t : T} {r' : R'} (Related : S → T → Prop)
  (Same : R → R' → Prop)
  (turns : ∀ {s s' t}, Related s t → turn s = .inl s' →
    ∃ n t', after turn' (n + 1) t = .inl t' ∧ Related s' t')
  (done : ∀ {s t r}, Related s t → turn s = .inr r → ∃ r', Returns turn' t r' ∧ Same r r')

include turns done

theorem Returns.simulate (returns : Returns turn s r) (related : Related s t) :
    ∃ r', Returns turn' t r' ∧ Same r r' := by
  obtain ⟨n, result⟩ := returns
  induction n generalizing s t with
  | zero => cases result
  | succ n ih =>
    cases turned : turn s with
    | inl s' =>
      rw [after_succ_inl turned] at result
      obtain ⟨k, t', reached, related'⟩ := turns related turned
      obtain ⟨r', returns, same⟩ := ih related' result
      exact ⟨r', (returns_iff_of_after reached).mpr returns, same⟩
    | inr r' =>
      rw [after_succ_inr turned] at result
      obtain rfl := Sum.inr.inj result
      exact done related turned

theorem Returns.reflect (returns : Returns turn' t r') (related : Related s t) :
    ∃ r, Returns turn s r ∧ Same r r' := by
  obtain ⟨n, result⟩ := returns
  -- each turn of the first leaves fewer turns to the second
  induction n using Nat.strongRecOn generalizing s t with
  | _ n ih =>
    cases turned : turn s with
    | inl s' =>
      obtain ⟨k, t', reached, related'⟩ := turns related turned
      have lt : k + 1 < n := by
        by_contra le
        have early := after_le_inr result (Nat.le_of_not_lt le)
        rw [reached] at early
        cases early
      obtain ⟨more, rfl⟩ := Nat.exists_eq_add_of_lt lt
      rw [Nat.add_assoc (k + 1), after_add_inl reached] at result
      obtain ⟨r, returns, same⟩ := ih (more + 1) (by omega) related' result
      exact ⟨r, (returns_iff_of_after (m := 1) (after_succ_inl turned 0)).mpr returns, same⟩
    | inr r =>
      obtain ⟨r'', returns, same⟩ := done related turned
      exact ⟨r, .done turned, returns.unique ⟨n, result⟩ ▸ same⟩

end Simulation

theorem returns_iff_of_simulation (Related : S → T → Prop)
    (turns : ∀ {s s' t}, Related s t → turn s = .inl s' →
      ∃ n t', after turn' (n + 1) t = .inl t' ∧ Related s' t')
    (done : ∀ {s t r}, Related s t → turn s = .inr r → Returns turn' t r) {t : T}
    (related : Related s t) : Returns turn s r ↔ Returns turn' t r := by
  have done' : ∀ {s t r}, Related s t → turn s = .inr r → ∃ r', Returns turn' t r' ∧ r = r' :=
    fun related ended => ⟨_, done related ended, rfl⟩
  constructor
  · intro returns
    obtain ⟨r', returns', rfl⟩ := returns.simulate Related (· = ·) turns done' related
    exact returns'
  intro returns
  obtain ⟨r', returns', rfl⟩ := returns.reflect Related (· = ·) turns done' related
  exact returns'

end IoJs.Library
