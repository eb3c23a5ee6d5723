import Mathlib.Data.List.Basic

/-!
# Sequences that are filled at one end and read at the other

A tape is a sequence. Items are appended at its end, put back in front of it, or taken
from its front. `Plays` says that a list of such moves is possible, one after the other,
and what is left at its end: every taken part was at the front when it was taken.
-/

namespace IoJs.Library

open List

variable {α : Type*}

namespace Tape

/-- What can be done with a tape. -/
inductive Move (α : Type*) where
  | append (items : List α)
  | putBack (items : List α)
  | take (items : List α)

/-- A move turns one tape into another; only what is at the front can be taken. -/
def Move.Turns : Move α → List α → List α → Prop
  | .append items, tape, tape' => tape' = tape ++ items
  | .putBack items, tape, tape' => tape' = items ++ tape
  | .take items, tape, tape' => tape = items ++ tape'

/-- The moves are possible on an empty tape, in this order, and leave `tape`. -/
inductive Plays : List (Move α) → List α → Prop where
  | nil : Plays [] []
  | snoc {moves : List (Move α)} {tape tape' : List α} {move : Move α} :
      Plays moves tape → move.Turns tape tape' → Plays (moves ++ [move]) tape'

/-- What was appended, in order. -/
def appended (moves : List (Move α)) : List α :=
  moves.flatMap fun
    | .append items => items
    | _ => []

/-- What was taken, in order. -/
def taken (moves : List (Move α)) : List α :=
  moves.flatMap fun
    | .take items => items
    | _ => []

/-- Is something put back? -/
def Move.isPutBack : Move α → Bool
  | .putBack _ => true
  | _ => false

variable {moves : List (Move α)} {tape : List α}

theorem Plays.appends (plays : Plays moves tape) (parts : List (List α)) :
    Plays (moves ++ parts.map .append) (tape ++ parts.flatten) := by
  induction parts generalizing moves tape with
  | nil => simpa using plays
  | cons part parts ih =>
    have first : Plays (moves ++ [.append part]) (tape ++ part) := plays.snoc rfl
    simpa using ih first

/-- **Conservation.** If nothing was put back, what was taken and then what is left is
what was appended. -/
theorem Plays.taken_append (plays : Plays moves tape)
    (none : ∀ move ∈ moves, move.isPutBack = false) : taken moves ++ tape = appended moves := by
  induction plays with
  | nil => rfl
  | @snoc moves tape tape' move plays turns ih =>
    have before := ih fun m member => none m (mem_append_left _ member)
    have last := none move (mem_append_right _ mem_cons_self)
    simp only [taken, appended, flatMap_append, flatMap_cons, flatMap_nil, append_nil] at before ⊢
    cases move with
    | append =>
      rw [turns, ← before]
      simp
    | putBack => cases last
    | take =>
      rw [turns] at before
      rw [← before]
      simp

end Tape

end IoJs.Library
