import IoJs.Library.Advance
import Mathlib.Data.List.Induction

/-!
# Walking down a list that is rewritten

A walk goes down a list of names, one name after the other. Each beginning of the list may be hard,
missing, or a link; then it is replaced by the target of the link, and the walk starts over. What is
behind the part that has been walked makes no difference (`after_append`), so what a walk of `names`
ends with is also passed by a walk of `names ++ more` (`exists_after_of_returns`).
-/

namespace IoJs.Library

open List

variable {Name E : Type*}

/-- What a beginning of a list is -/
inductive Entry (Name E : Type*) where
  | missing (error : E)
  | hard
  | link (target : List Name)

/-- The names that have been walked, and the names that are left -/
abbrev Place (Name : Type*) := List Name × List Name

namespace Place

variable (look : List Name → Entry Name E)

/-- The name that is next -/
def enter (done : List Name) (name : Name) (rest : List Name) :
    Entry Name E → Place Name ⊕ Except E (List Name)
  | .missing error => .inr (.error error)
  | .hard => .inl (done ++ [name], rest)
  | .link target => .inl ([], target ++ rest)

def turn : Place Name → Place Name ⊕ Except E (List Name)
  | (done, []) => .inr (.ok done)
  | (done, name :: rest) => enter done name rest (look (done ++ [name]))

/-- Each beginning is hard. -/
def Hard (names : List Name) : Prop := ∀ part, part ≠ [] → part <+: names → look part = .hard

variable {look} {done done' rest rest' names names' more : List Name} {name : Name} {m n : ℕ}
  {r : Except E (List Name)}

theorem hard_nil : Hard look [] := fun _ filled beginning => absurd (prefix_nil.mp beginning) filled

theorem hard_snoc : Hard look (done ++ [name]) ↔ Hard look done ∧
    look (done ++ [name]) = .hard := by
  constructor
  · intro hard
    refine ⟨fun part filled beginning => hard part filled ?_, hard _ (by simp) (prefix_refl _)⟩
    exact beginning.trans (prefix_append _ _)
  rintro ⟨hard, here⟩ part filled beginning
  rcases prefix_concat_iff.mp beginning with rfl | beginning
  · exact here
  · exact hard part filled beginning

theorem turn_link {target : List Name} (link : look (done ++ [name]) = .link target) :
    turn look (done, name :: rest) = .inl ([], target ++ rest) := by
  rw [turn, link]
  rfl

theorem turn_hard (hard : look (done ++ [name]) = .hard) :
    turn look (done, name :: rest) = .inl (done ++ [name], rest) := by
  rw [turn, hard]
  rfl

/-- A turn reads the next name, and starts over at a link. -/
def follow (look : List Name → Entry Name E) (done : List Name) (name : Name) :
    Except E (List Name × List Name) :=
  match look (done ++ [name]) with
  | .missing error => .error error
  | .hard => .ok (done ++ [name], [])
  | .link target => .ok ([], target)

theorem turn_eq (look : List Name → Entry Name E) : turn look = advance (follow look) := by
  funext place
  obtain ⟨done, rest⟩ := place
  cases rest with
  | nil => rfl
  | cons name rest =>
    rw [turn]
    cases found : look (done ++ [name]) with
    | missing error =>
      have failed : follow look done name = .error error := by rw [follow, found]
      rw [advance_error failed]
      rfl
    | hard =>
      have read : follow look done name = .ok (done ++ [name], []) := by rw [follow, found]
      rw [advance_ok read]
      rfl
    | link target =>
      have read : follow look done name = .ok ([], target) := by rw [follow, found]
      rw [advance_ok read]
      rfl

theorem after_hard (hard : Hard look (done ++ names)) (more : List Name) :
    after (turn look) names.length (done, names ++ more) = .inl (done ++ names, more) := by
  induction names generalizing done with
  | nil =>
    rw [append_nil]
    rfl
  | cons name names ih =>
    rw [append_cons] at hard
    have here : look (done ++ [name]) = .hard := hard _ (by simp) (prefix_append _ _)
    rw [cons_append, length_cons, after_succ_inl (turn_hard here), ih hard, ← append_cons]

theorem exists_after (hard : Hard look done)
    (ended : after (turn look) n (done, rest) = .inr (.ok names)) :
    Hard look names ∧ (names = done ++ rest ∨ ∃ k, ∀ more,
      after (turn look) (k + 1) (done, rest ++ more) = .inl ([], names ++ more)) := by
  induction n generalizing done rest with
  | zero => cases ended
  | succ n ih =>
    cases rest with
    | nil =>
      have done_ : turn look (done, []) = .inr (.ok done) := rfl
      obtain rfl := Except.ok.inj (Sum.inr.inj ended)
      exact ⟨hard, .inl (append_nil _).symm⟩
    | cons name rest =>
      cases found : look (done ++ [name]) with
      | missing =>
        rw [Library.after, turn, found] at ended
        cases ended
      | hard =>
        rw [after_succ_inl (turn_hard found)] at ended
        obtain ⟨hard', rfl | ⟨k, later⟩⟩ := ih (hard_snoc.mpr ⟨hard, found⟩) ended
        · exact ⟨hard', .inl (append_cons _ _ _).symm⟩
        refine ⟨hard', .inr ⟨k + 1, fun more => ?_⟩⟩
        rw [cons_append, after_succ_inl (turn_hard found)]
        exact later more
      | link =>
        rw [after_succ_inl (turn_link found)] at ended
        obtain ⟨hard', rfl | ⟨k, later⟩⟩ := ih hard_nil ended
        · refine ⟨hard', .inr ⟨0, fun more => ?_⟩⟩
          rw [cons_append, after_succ_inl (turn_link found), nil_append, append_assoc]
          rfl
        refine ⟨hard', .inr ⟨k + 1, fun more => ?_⟩⟩
        rw [cons_append, after_succ_inl (turn_link found), ← append_assoc]
        exact later more

theorem exists_after_of_returns (returns : Returns (turn look) ([], names) (.ok names')) :
    Hard look names' ∧ ∃ k, ∀ more,
      after (turn look) k ([], names ++ more) = .inl ([], names' ++ more) := by
  obtain ⟨n, ended⟩ := returns
  obtain ⟨hard, rfl | ⟨k, later⟩⟩ := exists_after hard_nil ended
  · exact ⟨hard, 0, fun more => rfl⟩
  · exact ⟨hard, k + 1, later⟩

theorem returns_of_hard (hard : Hard look names) : Returns (turn look) ([], names) (.ok names) := by
  have walked := after_hard (show Hard look ([] ++ names) from hard) []
  rw [append_nil] at walked
  exact (returns_iff_of_after walked).mpr (.done rfl)

end Place

end IoJs.Library
