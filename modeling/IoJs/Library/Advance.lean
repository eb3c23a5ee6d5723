import IoJs.Library.Machine

/-!
# Lists that are read from the front

A machine reads a list, one element after the other, and may put other elements in front of what is
left. It never looks behind the next element, so the reading of `l ++ m` begins with that of `l`,
and goes on where that ended (`returns_append`).
-/

namespace IoJs.Library

open List

variable {S A E : Type*}

/-- One element is read. -/
def advance (step : S → A → Except E (S × List A)) : S × List A → S × List A ⊕ Except E S
  | (s, []) => .inr (.ok s)
  | (s, a :: rest) =>
    match step s a with
    | .error error => .inr (.error error)
    | .ok (s', more) => .inl (s', more ++ rest)

variable {step : S → A → Except E (S × List A)} {s s' : S} {a : A} {l l' m more rest : List A}
  {error : E} {r : Except E S} {n : ℕ}

theorem advance_ok (read : step s a = .ok (s', more)) (rest : List A) :
    advance step (s, a :: rest) = .inl (s', more ++ rest) := by
  rw [advance, read]

theorem advance_error (failed : step s a = .error error) (rest : List A) :
    advance step (s, a :: rest) = .inr (.error error) := by
  rw [advance, failed]

theorem advance_append (advanced : advance step (s, l) = .inl (s', l')) (m : List A) :
    advance step (s, l ++ m) = .inl (s', l' ++ m) := by
  cases l with
  | nil => cases advanced
  | cons a rest =>
    cases read : step s a with
    | error =>
      rw [advance_error read] at advanced
      cases advanced
    | ok next =>
      obtain ⟨s'', more⟩ := next
      rw [advance_ok read] at advanced
      obtain ⟨rfl, rfl⟩ := Prod.mk.inj (Sum.inl.inj advanced)
      rw [cons_append, advance_ok read, append_assoc]

theorem after_advance_append (reached : after (advance step) n (s, l) = .inl (s', l'))
    (m : List A) : after (advance step) n (s, l ++ m) = .inl (s', l' ++ m) := by
  induction n generalizing s l with
  | zero =>
    obtain ⟨rfl, rfl⟩ := Prod.mk.inj (Sum.inl.inj reached)
    rfl
  | succ n ih =>
    cases advanced : advance step (s, l) with
    | inl place =>
      obtain ⟨s'', l''⟩ := place
      rw [after_succ_inl advanced] at reached
      rw [after_succ_inl (advance_append advanced m)]
      exact ih reached
    | inr r =>
      rw [after_succ_inr advanced] at reached
      cases reached

theorem exists_of_after_append (ended : after (advance step) n (s, l ++ m) = .inr r) :
    ∃ r', after (advance step) n (s, l) = .inr r' := by
  cases read : after (advance step) n (s, l) with
  | inr r' => exact ⟨r', rfl⟩
  | inl =>
    rw [after_advance_append read m] at ended
    cases ended

/-- The end comes behind the last element, at one that fails, or later. -/
theorem after_succ_cases (ended : after (advance step) (n + 1) (s, l) = .inr r) :
    l = [] ∧ r = .ok s ∨
    (∃ a rest error, l = a :: rest ∧ step s a = .error error ∧ r = .error error) ∨
    ∃ a rest s' more, l = a :: rest ∧ step s a = .ok (s', more) ∧
      after (advance step) n (s', more ++ rest) = .inr r := by
  cases l with
  | nil =>
    have done : advance step (s, []) = .inr (.ok s) := rfl
    rw [after_succ_inr done] at ended
    exact .inl ⟨rfl, (Sum.inr.inj ended).symm⟩
  | cons a rest =>
    cases read : step s a with
    | error error =>
      rw [after_succ_inr (advance_error read rest)] at ended
      exact .inr (.inl ⟨a, rest, error, rfl, read, (Sum.inr.inj ended).symm⟩)
    | ok next =>
      rw [after_succ_inl (advance_ok read rest)] at ended
      exact .inr (.inr ⟨a, rest, next.1, next.2, rfl, read, ended⟩)

theorem after_advance_error (ended : after (advance step) n (s, l) = .inr (.error error))
    (m : List A) : after (advance step) n (s, l ++ m) = .inr (.error error) := by
  induction n generalizing s l with
  | zero => cases ended
  | succ n ih =>
    obtain ⟨-, ⟨⟩⟩ | ⟨a, rest, error', rfl, read, same⟩ | ⟨a, rest, s'', more, rfl, read, ended⟩ :=
      after_succ_cases ended
    · rw [cons_append, after_succ_inr (advance_error read _), same]
    · rw [cons_append, after_succ_inl (advance_ok read _), ← append_assoc]
      exact ih ended

theorem exists_after_append (ended : after (advance step) n (s, l) = .inr (.ok s')) :
    ∃ k, ∀ m, after (advance step) k (s, l ++ m) = .inl (s', m) := by
  induction n generalizing s l with
  | zero => cases ended
  | succ n ih =>
    obtain ⟨rfl, ⟨⟩⟩ | ⟨-, -, -, -, -, ⟨⟩⟩ | ⟨a, rest, s'', more, rfl, read, ended⟩ :=
      after_succ_cases ended
    · exact ⟨0, fun m => rfl⟩
    obtain ⟨k, later⟩ := ih ended
    refine ⟨k + 1, fun m => ?_⟩
    rw [cons_append, after_succ_inl (advance_ok read _), ← append_assoc]
    exact later m

theorem returns_append (returns : Returns (advance step) (s, l) (.ok s')) (m : List A)
    (r : Except E S) :
    Returns (advance step) (s, l ++ m) r ↔ Returns (advance step) (s', m) r := by
  obtain ⟨n, ended⟩ := returns
  obtain ⟨k, later⟩ := exists_after_append ended
  exact returns_iff_of_after (later m)

theorem exists_returns_of_append (returns : Returns (advance step) (s, l ++ m) (.ok s')) :
    ∃ s'', Returns (advance step) (s, l) (.ok s'') := by
  obtain ⟨n, ended⟩ := returns
  obtain ⟨r, ended'⟩ := exists_of_after_append ended
  cases r with
  | ok s'' => exact ⟨s'', n, ended'⟩
  | error =>
    rw [after_advance_error ended' m] at ended
    cases ended

theorem invariant_of_returns (Good : S → Prop) (Element : A → Prop)
    (kept : ∀ {s a s' more}, Good s → Element a → step s a = .ok (s', more) →
      Good s' ∧ ∀ b ∈ more, Element b)
    (returns : Returns (advance step) (s, l) (.ok s')) (good : Good s)
    (elements : ∀ b ∈ l, Element b) : Good s' := by
  obtain ⟨n, ended⟩ := returns
  induction n generalizing s l with
  | zero => cases ended
  | succ n ih =>
    obtain ⟨rfl, ⟨⟩⟩ | ⟨-, -, -, -, -, ⟨⟩⟩ | ⟨a, rest, s'', more, rfl, read, ended⟩ :=
      after_succ_cases ended
    · exact good
    obtain ⟨good', more'⟩ := kept good (elements a mem_cons_self) read
    refine ih good' (fun b mem => ?_) ended
    rcases mem_append.mp mem with new | old
    · exact more' b new
    · exact elements b (mem_cons_of_mem _ old)

end IoJs.Library
