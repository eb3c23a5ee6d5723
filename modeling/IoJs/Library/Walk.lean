import Mathlib.Data.List.Induction

/-!
# Walks

A walk goes through a tree of names: it stays where it is, goes up, or goes down to a name. Where it
has come to is given by the steps up from where it began, and the names below that.
-/

namespace IoJs.Library

open List Option

/-- One move of a walk -/
inductive Move (α : Type) where
  | stay
  | up
  | down (name : α)

/-- Where a walk has come to -/
structure Position (α : Type) where
  ups : Nat
  names : List α

namespace Position

variable {α : Type} {above : Bool} {p : Position α}

/-- Where a walk begins -/
def start : Position α := ⟨0, []⟩

/-- One move; whether it may go above the start -/
def go (above : Bool) (p : Position α) : Move α → Position α
  | .stay => p
  | .up =>
    if p.names.isEmpty then if above then { p with ups := p.ups + 1 } else p
    else { p with names := p.names.dropLast }
  | .down name => { p with names := p.names ++ [name] }

def walk (above : Bool) (p : Position α) (moves : List (Move α)) : Position α :=
  moves.foldl (go above) p

/-- The shortest walk to a position -/
def moves (p : Position α) : List (Move α) := List.replicate p.ups .up ++ p.names.map .down

section

variable (above : Bool)

theorem walk_cons (p : Position α) (move : Move α) (moves : List (Move α)) :
    walk above p (move :: moves) = walk above (go above p move) moves := rfl

theorem walk_append (p : Position α) (first second : List (Move α)) :
    walk above p (first ++ second) = walk above (walk above p first) second := foldl_append

theorem go_up_of_names (filled : p.names ≠ []) :
    go above p .up = { p with names := p.names.dropLast } :=
  if_neg (mt List.isEmpty_iff.mp filled)

theorem go_up_of_start (ups : Nat) :
    go above (⟨ups, []⟩ : Position α) .up = if above then ⟨ups + 1, []⟩ else ⟨ups, []⟩ := rfl

theorem walk_downs (p : Position α) (names : List α) :
    walk above p (names.map .down) = { p with names := p.names ++ names } := by
  induction names generalizing p with
  | nil =>
    rw [append_nil]
    rfl
  | cons name names ih =>
    rw [map_cons, walk_cons, ih]
    simp only [go, append_assoc, singleton_append]

theorem walk_ups (p : Position α) {k : Nat} (le : k ≤ p.names.length) :
    walk above p (List.replicate k .up) =
      { p with names := p.names.take (p.names.length - k) } := by
  induction k with
  | zero =>
    rw [Nat.sub_zero, take_length]
    rfl
  | succ k ih =>
    have filled : p.names.take (p.names.length - k) ≠ [] := by
      intro empty
      have length := congrArg List.length empty
      rw [length_take, length_nil] at length
      omega
    have short : min (min (p.names.length - k) p.names.length - 1) (p.names.length - k) =
        p.names.length - (k + 1) := by omega
    rw [replicate_succ', walk_append, ih (by omega), walk_cons,
      go_up_of_names above (by exact filled), dropLast_eq_take, take_take,
      length_take, short]
    rfl

end

theorem walk_ups_start (ups : Nat) :
    walk true (start : Position α) (List.replicate ups .up) = ⟨ups, []⟩ := by
  induction ups with
  | zero => rfl
  | succ ups ih =>
    rw [replicate_succ', walk_append, ih]
    rfl

theorem walk_moves (p : Position α) (reachable : above = true ∨ p.ups = 0) :
    walk above start p.moves = p := by
  have ups : walk above start (List.replicate p.ups .up) = (⟨p.ups, []⟩ : Position α) := by
    rcases reachable with rfl | none
    · exact walk_ups_start p.ups
    rw [none]
    rfl
  rw [moves, walk_append, ups, walk_downs, nil_append]

theorem ups_walk_false (p : Position α) (moves : List (Move α)) :
    (walk false p moves).ups = p.ups := by
  induction moves generalizing p with
  | nil => rfl
  | cons move moves ih =>
    rw [walk_cons, ih]
    cases move with
    | stay => rfl
    | up =>
      rw [go]
      split
      · rfl
      · rfl
    | down name => rfl

theorem reachable_walk (above : Bool) (moves : List (Move α)) :
    above = true ∨ (walk above start moves).ups = 0 := by
  cases above with
  | true => exact .inl rfl
  | false => exact .inr (ups_walk_false start moves)

theorem walk_moves_append (above : Bool) (first second : List (Move α)) :
    walk above start ((walk above start first).moves ++ second) =
      walk above start (first ++ second) := by
  rw [walk_append, walk_moves _ (reachable_walk above first), walk_append]

theorem mem_names_walk {moves : List (Move α)} {name : α}
    (mem : name ∈ (walk above p moves).names) :
    name ∈ p.names ∨ .down name ∈ moves := by
  induction moves generalizing p with
  | nil => exact .inl mem
  | cons move moves ih =>
    rcases ih mem with before | later
    · cases move with
      | stay => exact .inl before
      | up =>
        rw [go] at before
        split at before
        · split at before
          · exact .inl before
          · exact .inl before
        · exact .inl (dropLast_subset _ before)
      | down =>
        rcases mem_append.mp before with old | new
        · exact .inl old
        rw [mem_singleton.mp new]
        exact .inr mem_cons_self
    · exact .inr (mem_cons_of_mem _ later)

/-! ## The first name -/

/-- How deep a walk is at its end, if it begins at some depth and never goes above the start -/
def depth : Nat → List (Move α) → Option Nat
  | d, [] => some d
  | d, .stay :: moves => depth d moves
  | 0, .up :: _ => none
  | d + 1, .up :: moves => depth d moves
  | d, .down _ :: moves => depth (d + 1) moves

theorem depth_append (d : Nat) (first second : List (Move α)) :
    depth d (first ++ second) = (depth d first).bind fun d => depth d second := by
  fun_induction depth d first with
  | case1 d => rfl
  | case2 d moves ih | case4 d moves ih | case5 d name moves ih => exact ih
  | case3 moves => rfl

theorem depth_add {d e : Nat} {moves : List (Move α)} (deep : depth d moves = some e) (k : Nat) :
    depth (d + k) moves = some (e + k) := by
  fun_induction depth d moves with
  | case1 d =>
    rw [some.inj deep]
    rfl
  | case2 d moves ih => exact ih deep
  | case3 moves => cases deep
  | case4 d moves ih =>
    rw [Nat.succ_add]
    exact ih deep
  | case5 d name moves ih =>
    rw [depth, Nat.add_right_comm]
    exact ih deep

theorem exists_walk_of_depth (ups : Nat) (names : List α) {below : List α} {moves : List (Move α)}
    {d : Nat} (deep : depth below.length moves = some d) :
    ∃ below', below'.length = d ∧
      walk true ⟨ups, names ++ below⟩ moves = ⟨ups, names ++ below'⟩ := by
  induction moves generalizing below with
  | nil => exact ⟨below, some.inj deep, rfl⟩
  | cons move moves ih =>
    cases move with
    | stay => exact ih deep
    | up =>
      rcases eq_nil_or_concat below with rfl | ⟨front, last, split⟩
      · cases deep
      rw [concat_eq_append] at split
      subst split
      rw [length_append, length_singleton] at deep
      obtain ⟨below', length, leads⟩ := ih deep
      refine ⟨below', length, ?_⟩
      rw [walk_cons, go_up_of_names true (by simp), ← append_assoc, dropLast_concat]
      exact leads
    | down name =>
      have deep' : depth (below ++ [name]).length moves = some d := by
        rw [length_append]
        exact deep
      obtain ⟨below', length, leads⟩ := ih deep'
      refine ⟨below', length, ?_⟩
      rw [walk_cons, go, append_assoc]
      exact leads

theorem ups_le_walk (above : Bool) (p : Position α) (moves : List (Move α)) :
    p.ups ≤ (walk above p moves).ups := by
  induction moves generalizing p with
  | nil => exact Nat.le_refl _
  | cons move moves ih =>
    refine Nat.le_trans ?_ (ih (go above p move))
    cases move with
    | stay => exact Nat.le_refl _
    | up =>
      rw [go]
      split_ifs
      · exact Nat.le_succ _
      · exact Nat.le_refl _
      · exact Nat.le_refl _
    | down name => exact Nat.le_refl _

theorem depth_of_ups {p : Position α} {moves : List (Move α)}
    (same : (walk true p moves).ups = p.ups) :
    depth p.names.length moves = some (walk true p moves).names.length := by
  induction moves generalizing p with
  | nil => rfl
  | cons move moves ih =>
    rw [walk_cons] at same ⊢
    cases move with
    | stay => exact ih same
    | up =>
      obtain ⟨ups, names⟩ := p
      rcases eq_nil_or_concat names with rfl | ⟨front, last, split⟩
      · have higher : ups + 1 ≤ ups := by
          have le := ups_le_walk true (⟨ups + 1, []⟩ : Position α) moves
          exact Nat.le_trans le (Nat.le_of_eq same)
        omega
      rw [concat_eq_append] at split
      subst split
      rw [go_up_of_names true (by simp)] at same ⊢
      simp only [dropLast_concat] at same ⊢
      rw [length_append, length_singleton]
      exact ih same
    | down name =>
      have later := ih (p := go true p (.down name)) same
      simp only [go, length_append, length_singleton] at later
      exact later

/-- A name is gone down to from the start, and not left again. -/
def StandsFirst (name : α) (moves : List (Move α)) : Prop :=
  ∃ first rest, moves = first ++ .down name :: rest ∧ depth 0 first = some 0 ∧
    (depth 0 rest).isSome = true

theorem StandsFirst.concat {name : α} {moves : List (Move α)} {move : Move α} {d : Nat}
    (stands : StandsFirst name moves) (deep : depth 0 moves = some (d + 1))
    (stays : (depth d [move]).isSome = true) : StandsFirst name (moves ++ [move]) := by
  obtain ⟨first, rest, split, back, some_⟩ := stands
  obtain ⟨e, deep'⟩ := isSome_iff_exists.mp some_
  have whole : depth 0 moves = some (e + 1) := by
    rw [split, depth_append, back]
    exact depth_add deep' 1
  have same : d = e := by
    rw [deep, Option.some.injEq] at whole
    omega
  refine ⟨first, rest ++ [move], ?_, back, ?_⟩
  · rw [split, append_assoc, cons_append]
  rw [depth_append, deep', ← same]
  exact stays

theorem head_names_walk_iff {name : α} {moves : List (Move α)} :
    ((walk true start moves).ups = 0 ∧ (walk true start moves).names.head? = some name) ↔
      StandsFirst name moves := by
  constructor
  · induction moves using List.reverseRecOn with
    | nil =>
      rintro ⟨-, none⟩
      cases none
    | append_singleton moves move ih =>
      rintro ⟨low, head⟩
      have before : (walk true start moves).ups = 0 := by
        have le := ups_le_walk true (walk true (start : Position α) moves) [move]
        rw [← walk_append, low] at le
        exact Nat.le_zero.mp le
      have deep : depth 0 moves = some (walk true start moves).names.length :=
        depth_of_ups (p := (start : Position α)) before
      rw [walk_append] at low head
      generalize walk true start moves = q at low head ih deep before
      obtain ⟨ups, names⟩ := q
      cases names with
      | nil =>
        -- only a step down gives a first name
        cases move with
        | stay => cases head
        | up => cases low
        | down =>
          cases head
          exact ⟨moves, [], rfl, deep, rfl⟩
      | cons first names =>
        have kept : name = first → StandsFirst name (moves ++ [move]) := by
          rintro rfl
          refine (ih ⟨before, rfl⟩).concat deep ?_
          cases move with
          | stay => rfl
          | up =>
            cases names with
            | nil => cases head
            | cons => rfl
          | down => rfl
        refine kept ?_
        cases move with
        | stay | down => exact (some.inj head).symm
        | up =>
          cases names with
          | nil => cases head
          | cons => exact (some.inj head).symm
  rintro ⟨first, rest, rfl, back, stays⟩
  obtain ⟨d, deep⟩ := isSome_iff_exists.mp stays
  have back' : depth ([] : List α).length first = some 0 := back
  obtain ⟨none, empty, leads⟩ := exists_walk_of_depth 0 [] back'
  rw [length_eq_zero_iff] at empty
  subst empty
  have deep' : depth ([] : List α).length rest = some d := deep
  obtain ⟨below, -, leads'⟩ := exists_walk_of_depth 0 [name] deep'
  have whole : walk true start (first ++ .down name :: rest) = ⟨0, [name] ++ below⟩ := by
    rw [walk_append, walk_cons]
    exact (congrArg (fun q => walk true (go true q (.down name)) rest) leads).trans leads'
  rw [whole]
  exact ⟨rfl, rfl⟩

end Position

end IoJs.Library
