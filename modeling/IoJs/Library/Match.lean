import IoJs.Library.RegExp

/-!
# What a pattern matches

`behind` is what is left of the input where the items match at its head, the first way that a
matcher finds: as many elements as possible, and fewer if what follows does not match. `firstMatch`
is the match itself, at the first place with one, by the first alternative that has one. There is a
match exactly where `Pattern.test` says so (`isSome_firstMatch`).
-/

namespace IoJs.Library.RegExp

open Option

variable {A α : Type}

/-- What is behind an element that satisfies `p` -/
def behindOne (p : α → Bool) (k : Bool → List α → Option (List α)) : List α → Option (List α)
  | [] => none
  | x :: rest => if p x then k false rest else none

/-- What is behind elements that satisfy `p`, as many as possible -/
def behindMany (p : α → Bool) (k : Bool → List α → Option (List α)) :
    Bool → List α → Option (List α)
  | first, [] => k first []
  | first, x :: rest =>
    if p x then (behindMany p k false rest).or (k first (x :: rest)) else k first (x :: rest)

variable (sat : A → α → Bool)

/-- What is behind the items, at the head of the input -/
def behind : List (Item A) → Bool → List α → Option (List α)
  | [], _, input => some input
  | .one a :: items, _, input => behindOne (sat a) (behind items) input
  | .star a :: items, first, input => behindMany (sat a) (behind items) first input
  | .plus a :: items, _, input => behindOne (sat a) (behindMany (sat a) (behind items)) input
  | .opt a :: items, first, input =>
    (behindOne (sat a) (behind items) input).or (behind items first input)
  | .start :: items, first, input => if first then behind items first input else none
  | .stop :: items, first, input => if input.isEmpty then behind items first input else none

/-- The first match of an alternative, which may begin behind the head -/
def firstMatchFrom (pattern : Pattern A) : Bool → List α → Option (List α)
  | first, [] => (pattern.findSome? fun items => behind sat items first []).map fun _ => []
  | first, x :: rest =>
    match pattern.findSome? fun items => behind sat items first (x :: rest) with
    | some left => some ((x :: rest).take ((x :: rest).length - left.length))
    | none => firstMatchFrom pattern false rest

/-- `input.match(pattern)[0]`, where there is a match -/
def Pattern.firstMatch (pattern : Pattern A) (input : List α) : Option (List α) :=
  firstMatchFrom sat pattern true input

variable {sat} {p : α → Bool} {k : Bool → List α → Option (List α)} {k' : Bool → List α → Bool}
  {items : List (Item A)} {pattern : Pattern A} {first : Bool} {input : List α}

theorem isSome_behindOne (same : ∀ first input, (k first input).isSome = k' first input) :
    (behindOne p k input).isSome = once p k' input := by
  cases input with
  | nil => rfl
  | cons x rest =>
    rw [behindOne, once, ← same]
    cases p x with
    | true => rfl
    | false => rfl

theorem isSome_behindMany (same : ∀ first input, (k first input).isSome = k' first input) :
    (behindMany p k first input).isSome = many p k' first input := by
  induction input generalizing first with
  | nil => exact same first []
  | cons x rest ih =>
    rw [behindMany, many, ← same]
    cases p x with
    | true => rw [if_pos rfl, isSome_or, ih, Bool.true_and, Bool.or_comm]
    | false => rw [if_neg Bool.false_ne_true, Bool.false_and, Bool.or_false]

theorem isSome_behind : (behind sat items first input).isSome = run sat items first input := by
  induction items generalizing first input with
  | nil => rfl
  | cons item items ih =>
    have same : ∀ first input, (behind sat items first input).isSome = run sat items first input :=
      fun _ _ => ih
    cases item with
    | one a => exact isSome_behindOne same
    | star a => exact isSome_behindMany same
    | plus a => exact isSome_behindOne fun _ _ => isSome_behindMany same
    | opt a => rw [behind, run, isSome_or, isSome_behindOne same, ih, Bool.or_comm]
    | start =>
      rw [behind, run, ← ih]
      cases first with
      | true => rfl
      | false => rfl
    | stop =>
      rw [behind, run, ← ih]
      cases input.isEmpty with
      | true => rfl
      | false => rfl

theorem isSome_findSome (first : Bool) (input : List α) :
    (pattern.findSome? fun items => behind sat items first input).isSome =
      pattern.any fun items => run sat items first input := by
  induction pattern with
  | nil => rfl
  | cons items pattern ih =>
    rw [List.findSome?_cons, List.any_cons, ← ih, ← isSome_behind]
    cases behind sat items first input with
    | none => rfl
    | some left => rfl

theorem isSome_firstMatchFrom : (firstMatchFrom sat pattern first input).isSome =
    pattern.any fun items => search sat items first input := by
  induction input generalizing first with
  | nil =>
    rw [firstMatchFrom, isSome_map, isSome_findSome]
    rfl
  | cons x rest ih =>
    have split : (pattern.any fun items => search sat items first (x :: rest)) =
        ((pattern.any fun items => run sat items first (x :: rest)) ||
          pattern.any fun items => search sat items false rest) := by
      rw [Bool.eq_iff_iff, Bool.or_eq_true, List.any_eq_true, List.any_eq_true, List.any_eq_true]
      simp only [search, Bool.or_eq_true, and_or_left, exists_or]
    rw [split, ← isSome_findSome, ← ih, firstMatchFrom]
    cases pattern.findSome? fun items => behind sat items first (x :: rest) with
    | none => rfl
    | some left => rfl

theorem isSome_firstMatch : (pattern.firstMatch sat input).isSome = pattern.test sat input :=
  isSome_firstMatchFrom

end IoJs.Library.RegExp
