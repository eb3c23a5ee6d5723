import Mathlib.Data.List.DropRight
import Mathlib.Data.List.Infix

/-!
# Dot segments

The merging of paths and the removal of dot segments as RFC 3986 has them in 5.2.3 and 5.2.4: a loop
over an input buffer and an output buffer. For a path that is written from segments the loop is a
walk over the segments with a stack (`removeDotSegments_write`). The same stack comes out of a walk
from the end, which counts the parents that are still to be removed (`foldl_settle`).
-/

namespace IoJs.Library.DotSegments

open List

variable {α : Type*}

section Definitions

variable (slash dot : α)

/-- A path: a slash before each segment -/
def write (segments : List (List α)) : List α := segments.flatMap fun segment => slash :: segment

variable [DecidableEq α]

/-- The output without its last segment and the slash before it -/
def parent (output : List α) : List α := (output.rdropWhile fun c => c ≠ slash).dropLast

/-- The first segment of the input, with the slash before it -/
def firstSegment : List α → List α
  | [] => []
  | c :: input => c :: input.takeWhile fun c => c ≠ slash

/-- One round of the loop: the input and the output after it -/
def turn (input output : List α) : List α × List α :=
  if [dot, dot, slash] <+: input then (input.drop 3, output)
  else if [dot, slash] <+: input then (input.drop 2, output)
  else if [slash, dot, slash] <+: input then (input.drop 2, output)
  else if input = [slash, dot] then ([slash], output)
  else if [slash, dot, dot, slash] <+: input then (input.drop 3, parent slash output)
  else if input = [slash, dot, dot] then ([slash], parent slash output)
  else if input = [dot] ∨ input = [dot, dot] then ([], output)
  else (input.drop (firstSegment slash input).length, output ++ firstSegment slash input)

/-- The loop, for as many rounds as are left -/
def removeFrom : Nat → List α → List α → List α
  | 0, _, output => output
  | rounds + 1, input, output =>
    if input = [] then output
    else
      removeFrom rounds (turn slash dot input output).1 (turn slash dot input output).2

/-- What the loop makes of an input and an output -/
def removeAll (input output : List α) : List α := removeFrom slash dot input.length input output

def removeDotSegments (path : List α) : List α := removeAll slash dot path []

/-- `merge`; `authority` says whether the base has one. -/
def merge (authority : Bool) (base reference : List α) : List α :=
  if authority ∧ base = [] then slash :: reference
  else (base.rdropWhile fun c => c ≠ slash) ++ reference

/-- The path that a reference with a path leads to -/
def target (authority : Bool) (base reference : List α) : List α :=
  if reference.head? = some slash then removeDotSegments slash dot reference
  else removeDotSegments slash dot (merge slash authority base reference)

/-- What a segment does to those before it -/
def settle (above : List (List α)) (segment : List α) : List (List α) :=
  if segment = [dot] then above
  else if segment = [dot, dot] then above.dropLast
  else above ++ [segment]

/-- An empty segment behind a path that ends with dots -/
def closing (last : List α) : List (List α) := if last = [dot] ∨ last = [dot, dot] then [[]] else []

/-- What a segment does where the parents behind it that are left are counted -/
def prune (segment : List α) (state : List (List α) × Nat) : List (List α) × Nat :=
  if segment = [dot] then state
  else if segment = [dot, dot] then (state.1, state.2 + 1)
  else if state.2 ≠ 0 then (state.1, state.2 - 1)
  else (segment :: state.1, 0)

end Definitions

variable {slash dot : α} {input output path segment last : List α} {segments above : List (List α)}

/-! ## Paths and segments -/

theorem write_append (first second : List (List α)) :
    write slash (first ++ second) = write slash first ++ write slash second :=
  flatMap_append

theorem write_cons (segment : List α) (segments : List (List α)) :
    write slash (segment :: segments) = slash :: segment ++ write slash segments :=
  flatMap_cons

theorem write_concat (segments : List (List α)) (last : List α) :
    write slash (segments ++ [last]) = write slash segments ++ slash :: last := by
  rw [write_append, write_cons]
  exact congrArg _ (append_nil _)

section

variable (filled : segments ≠ [])
include filled

theorem cons_intercalate : slash :: [slash].intercalate segments = write slash segments := by
  induction segments with
  | nil => exact absurd rfl filled
  | cons segment segments ih =>
    cases segments with
    | nil => rw [intercalate_singleton, write_cons]; exact (append_nil _).symm
    | cons =>
      rw [intercalate_cons_of_ne_nil (cons_ne_nil _ _), write_cons, ← ih (cons_ne_nil _ _)]
      simp

theorem write_ne_nil : write slash segments ≠ [] := by
  obtain ⟨segment, segments, rfl⟩ := exists_cons_of_ne_nil filled
  exact cons_ne_nil _ _

theorem head_write : (write slash segments).head? = some slash := by
  obtain ⟨segment, segments, rfl⟩ := exists_cons_of_ne_nil filled
  rfl

end

variable [DecidableEq α]

theorem rdropWhile_write (plain : slash ∉ last) (before : List α) :
    (before ++ slash :: last).rdropWhile (fun c => c ≠ slash) = before ++ [slash] := by
  have inside : ∀ c ∈ last.reverse, decide (c ≠ slash) = true := by
    intro c mem
    exact decide_eq_true fun same => plain (same ▸ mem_reverse.mp mem)
  rw [List.rdropWhile, reverse_append, reverse_cons, append_assoc, dropWhile_append_of_pos inside]
  simp

theorem parent_write (plain : ∀ segment ∈ segments, slash ∉ segment) :
    parent slash (write slash segments) = write slash segments.dropLast := by
  cases segments using List.reverseRecOn with
  | nil => rfl
  | append_singleton segments last =>
    have plainLast := plain last (mem_append_right _ (mem_singleton_self last))
    rw [write_concat, parent, rdropWhile_write plainLast, dropLast_concat, dropLast_concat]

/-! ## The loop -/

theorem length_turn (filled : input ≠ []) (output : List α) :
    (turn slash dot input output).1.length < input.length := by
  obtain ⟨c, rest, rfl⟩ := exists_cons_of_ne_nil filled
  have positive : 0 < (c :: rest).length := Nat.succ_pos _
  have drop (n : Nat) : ((c :: rest).drop (n + 1)).length < (c :: rest).length := by
    rw [length_drop]
    omega
  rw [turn]
  split_ifs with first second third fourth fifth sixth seventh
  · exact drop 2
  · exact drop 1
  · exact drop 1
  · rw [fourth]
    exact Nat.lt_succ_self 1
  · exact drop 2
  · rw [sixth]
    exact Nat.lt_of_sub_eq_succ rfl
  · exact positive
  · exact drop _

theorem removeFrom_of_le {rounds : Nat} (enough : input.length ≤ rounds) (output : List α) :
    removeFrom slash dot rounds input output = removeFrom slash dot input.length input output := by
  induction rounds using Nat.strong_induction_on generalizing input output with
  | _ rounds ih =>
    cases rounds with
    | zero => rw [Nat.le_zero.mp enough]
    | succ rounds =>
      by_cases empty : input = []
      · rw [empty, removeFrom, if_pos rfl]
        rfl
      obtain ⟨n, length⟩ := Nat.exists_eq_succ_of_ne_zero (mt length_eq_zero_iff.mp empty)
      have shorter := @length_turn _ slash dot input _ empty output
      rw [length, removeFrom, removeFrom, if_neg empty, if_neg empty,
        ih rounds (Nat.lt_succ_self rounds) (by omega)]
      exact (ih n (by omega) (by omega) _).symm

theorem removeAll_turn (filled : input ≠ []) (output : List α) : removeAll slash dot input output =
    removeAll slash dot (turn slash dot input output).1 (turn slash dot input output).2 := by
  obtain ⟨n, length⟩ := Nat.exists_eq_succ_of_ne_zero (mt length_eq_zero_iff.mp filled)
  have shorter := @length_turn _ slash dot input _ filled output
  rw [removeAll, length, removeFrom, if_neg filled, removeFrom_of_le (by omega)]
  rfl

theorem mem_turn {c : α} (output : List α) :
    (c ∈ (turn slash dot input output).1 → c = slash ∨ c ∈ input) ∧
      (c ∈ (turn slash dot input output).2 → c ∈ input ∨ c ∈ output) := by
  have dropped {n : Nat} (mem : c ∈ input.drop n) : c = slash ∨ c ∈ input :=
    .inr (mem_of_mem_drop mem)
  have above (mem : c ∈ parent slash output) : c ∈ input ∨ c ∈ output :=
    .inr ((List.rdropWhile_prefix _ output).subset (mem_of_mem_dropLast mem))
  rw [turn]
  split_ifs
  · exact ⟨dropped, .inr⟩
  · exact ⟨dropped, .inr⟩
  · exact ⟨dropped, .inr⟩
  · exact ⟨fun mem => .inl (mem_singleton.mp mem), .inr⟩
  · exact ⟨dropped, above⟩
  · exact ⟨fun mem => .inl (mem_singleton.mp mem), above⟩
  · exact ⟨nofun, .inr⟩
  refine ⟨dropped, fun mem => ?_⟩
  rcases mem_append.mp mem with before | here
  · exact .inr before
  cases input with
  | nil => cases here
  | cons =>
    rcases mem_cons.mp here with rfl | later
    · exact .inl mem_cons_self
    · exact .inl (mem_cons_of_mem _ ((takeWhile_sublist _).subset later))

theorem mem_removeFrom {c : α} {rounds : Nat}
    (mem : c ∈ removeFrom slash dot rounds input output) : c = slash ∨ c ∈ input ∨ c ∈ output := by
  induction rounds generalizing input output with
  | zero => exact .inr (.inr mem)
  | succ rounds ih =>
    rw [removeFrom] at mem
    split_ifs at mem
    · exact .inr (.inr mem)
    obtain ⟨first, second⟩ := @mem_turn _ slash dot input _ c output
    rcases ih mem with here | left | done
    · exact .inl here
    · exact (first left).imp_right .inl
    · exact .inr (second done)

theorem mem_target {c : α} {authority : Bool} {base reference : List α}
    (mem : c ∈ target slash dot authority base reference) :
    c = slash ∨ c ∈ base ∨ c ∈ reference := by
  have removed {path : List α} (mem : c ∈ removeDotSegments slash dot path) :
      c = slash ∨ c ∈ path :=
    (mem_removeFrom mem).imp_right fun both => both.resolve_right not_mem_nil
  rw [target] at mem
  split_ifs at mem
  · exact (removed mem).imp_right .inr
  rcases removed mem with here | mem
  · exact .inl here
  rw [merge] at mem
  split_ifs at mem
  · exact (mem_cons.mp mem).imp_right .inr
  rcases mem_append.mp mem with above | behind
  · exact .inr (.inl ((List.rdropWhile_prefix _ base).subset above))
  · exact .inr (.inr behind)

/-! ## A round for each segment -/

theorem takeWhile_segment (plain : slash ∉ segment) (segments : List (List α)) :
    (segment ++ write slash segments).takeWhile (fun c => c ≠ slash) = segment := by
  have inside : ∀ c ∈ segment, decide (c ≠ slash) = true :=
    fun c mem => decide_eq_true fun same => plain (same ▸ mem)
  rw [takeWhile_append_of_pos inside]
  cases segments with
  | nil => exact append_nil segment
  | cons => simp [write_cons]

section

variable (different : dot ≠ slash)
include different

theorem turn_dot (segments : List (List α)) (output : List α) :
    turn slash dot (write slash ([dot] :: segments)) output =
      (write slash (if segments = [] then [[]] else segments), output) := by
  cases segments with
  | nil | cons => simp [turn, write, different, different.symm]

theorem turn_dots (segments : List (List α)) (output : List α) :
    turn slash dot (write slash ([dot, dot] :: segments)) output =
      (write slash (if segments = [] then [[]] else segments), parent slash output) := by
  cases segments with
  | nil | cons => simp [turn, write, different, different.symm]

theorem turn_other (plain : slash ∉ segment) (notDot : segment ≠ [dot])
    (notDots : segment ≠ [dot, dot]) (segments : List (List α)) (output : List α) :
    turn slash dot (write slash (segment :: segments)) output =
      (write slash segments, output ++ slash :: segment) := by
  obtain ⟨rest, whole⟩ : ∃ rest, rest = segment ++ write slash segments := ⟨_, rfl⟩
  have first : rest.takeWhile (fun c => c ≠ slash) = segment := by
    rw [whole]
    exact takeWhile_segment plain segments
  have dotThen (more : List α) : rest ≠ dot :: slash :: more := fun same =>
    notDot (by rw [← first, same]; simp [different])
  have dotEnd : rest ≠ [dot] := fun same => notDot (by rw [← first, same]; simp [different])
  have dotsThen (more : List α) : rest ≠ dot :: dot :: slash :: more := fun same =>
    notDots (by rw [← first, same]; simp [different])
  have dotsEnd : rest ≠ [dot, dot] := fun same => notDots (by rw [← first, same]; simp [different])
  have length : firstSegment slash (slash :: rest) = slash :: segment := congrArg _ first
  rw [write_cons, cons_append, ← whole, turn, length,
    if_neg fun begins => different (cons_prefix_cons.mp begins).1,
    if_neg fun begins => different (cons_prefix_cons.mp begins).1,
    if_neg fun begins => ?_, if_neg fun same => dotEnd (List.cons.inj same).2,
    if_neg fun begins => ?_, if_neg fun same => dotsEnd (List.cons.inj same).2,
    if_neg fun same => ?_]
  · rw [length_cons, drop_succ_cons, whole, drop_left]
  · rcases same with same | same
    · exact different (List.cons.inj same).1.symm
    · exact different (List.cons.inj same).1.symm
  · obtain ⟨more, same⟩ := (cons_prefix_cons.mp begins).2
    exact dotsThen more same.symm
  obtain ⟨more, same⟩ := (cons_prefix_cons.mp begins).2
  exact dotThen more same.symm

end

theorem not_mem_settle (plainAbove : ∀ segment ∈ above, slash ∉ segment) (plain : slash ∉ segment) :
    ∀ part ∈ settle dot above segment, slash ∉ part := by
  intro part mem
  rw [settle] at mem
  split_ifs at mem
  · exact plainAbove part mem
  · exact plainAbove part (mem_of_mem_dropLast mem)
  rcases mem_append.mp mem with here | last
  · exact plainAbove part here
  rw [mem_singleton.mp last]
  exact plain

section

variable (different : dot ≠ slash)
include different

theorem removeAll_slash (output : List α) :
    removeAll slash dot (write slash [[]]) output = output ++ [slash] := by
  rw [removeAll_turn (write_ne_nil (cons_ne_nil _ _)), turn_other different not_mem_nil
    (cons_ne_nil _ _).symm (cons_ne_nil _ _).symm]
  rfl

theorem removeAll_cons (plain : slash ∉ segment)
    (plainAbove : ∀ segment ∈ above, slash ∉ segment) (more : segments ≠ []) :
    removeAll slash dot (write slash (segment :: segments)) (write slash above) =
      removeAll slash dot (write slash segments) (write slash (settle dot above segment)) := by
  rw [removeAll_turn (write_ne_nil (cons_ne_nil _ _)), settle]
  split_ifs with isDot isDots
  · rw [isDot, turn_dot different, if_neg more]
  · rw [isDots, turn_dots different, if_neg more, parent_write plainAbove]
  · rw [turn_other different plain isDot isDots, write_concat]

theorem removeAll_last (plain : slash ∉ last) (plainAbove : ∀ segment ∈ above, slash ∉ segment) :
    removeAll slash dot (write slash [last]) (write slash above) =
      write slash (settle dot above last ++ closing dot last) := by
  rw [removeAll_turn (write_ne_nil (cons_ne_nil _ _)), settle, closing]
  by_cases isDot : last = [dot]
  · rw [if_pos isDot, if_pos (.inl isDot), isDot, turn_dot different, if_pos rfl,
      removeAll_slash different, write_concat]
  by_cases isDots : last = [dot, dot]
  · rw [if_neg isDot, if_pos isDots, if_pos (.inr isDots), isDots, turn_dots different, if_pos rfl,
      parent_write plainAbove, removeAll_slash different, write_concat]
  rw [if_neg isDot, if_neg isDots, if_neg (not_or_intro isDot isDots), append_nil,
    turn_other different plain isDot isDots, write_concat]
  rfl

theorem removeAll_write (plain : ∀ segment ∈ segments, slash ∉ segment)
    (plainLast : slash ∉ last) (plainAbove : ∀ segment ∈ above, slash ∉ segment) :
    removeAll slash dot (write slash (segments ++ [last])) (write slash above) =
      write slash (settle dot (segments.foldl (settle dot) above) last ++ closing dot last) := by
  induction segments generalizing above with
  | nil => exact removeAll_last different plainLast plainAbove
  | cons segment segments ih =>
    obtain ⟨here, plain⟩ := forall_mem_cons.mp plain
    rw [cons_append, removeAll_cons different here plainAbove (by simp), foldl_cons]
    exact ih plain (not_mem_settle plainAbove here)

end

/-! ## From the end -/

/-- **The stack from the other side**: what is kept of a path with a counter of the parents that are
left is what its segments put on the stack, behind what these parents leave of it. -/
theorem foldl_settle (segments above : List (List α)) : segments.foldl (settle dot) above =
    above.take (above.length - (segments.foldr (prune dot) ([], 0)).2) ++
      (segments.foldr (prune dot) ([], 0)).1 := by
  induction segments generalizing above with
  | nil => simp
  | cons segment segments ih =>
    rw [foldl_cons, foldr_cons, ih, settle, prune]
    generalize segments.foldr (prune dot) ([], 0) = state
    split_ifs with isDot isDots pending
    · rfl
    · rw [length_dropLast, dropLast_eq_take, take_take]
      congr 2
      omega
    · rw [length_append, length_singleton, take_append_of_le_length (by omega)]
      congr 2
      omega
    have all : (above ++ [segment]).length ≤ (above ++ [segment]).length - state.2 := by omega
    rw [take_of_length_le all, Nat.sub_zero, take_length, append_assoc]
    rfl

theorem exists_foldr_prune (segments after : List (List α)) (ups : Nat) :
    ∃ kept left, segments.foldr (prune dot) (after, ups) = (kept ++ after, left) ∧
      ∀ segment ∈ kept, segment ∈ segments := by
  induction segments with
  | nil => exact ⟨[], ups, rfl, fun _ mem => mem⟩
  | cons segment segments ih =>
    obtain ⟨kept, left, eq, from_⟩ := ih
    have later : ∀ part ∈ kept, part ∈ segment :: segments :=
      fun part mem => mem_cons_of_mem _ (from_ part mem)
    rw [foldr_cons, eq, prune]
    split_ifs
    · exact ⟨kept, left, rfl, later⟩
    · exact ⟨kept, left + 1, rfl, later⟩
    · exact ⟨kept, left - 1, rfl, later⟩
    refine ⟨segment :: kept, 0, rfl, ?_⟩
    exact forall_mem_cons.mpr ⟨mem_cons_self, later⟩

theorem removeDotSegments_write (different : dot ≠ slash)
    (plain : ∀ segment ∈ segments ++ [last], slash ∉ segment) :
    removeDotSegments slash dot (write slash (segments ++ [last])) =
      write slash (((segments ++ [last]).foldr (prune dot) ([], 0)).1 ++ closing dot last) := by
  have stack := @foldl_settle α dot _ (segments ++ [last]) []
  rw [foldl_concat, take_nil, nil_append] at stack
  rw [← stack]
  exact removeAll_write different (fun segment mem => plain segment (mem_append_left _ mem))
    (plain last (mem_append_right _ (mem_singleton_self last)))
    (fun segment mem => absurd mem not_mem_nil)

theorem kept_ne_nil (segments : List (List α)) (last : List α) :
    ((segments ++ [last]).foldr (prune dot) ([], 0)).1 ++ closing dot last ≠ [] := by
  by_cases dots : last = [dot] ∨ last = [dot, dot]
  · rw [closing, if_pos dots]
    exact append_ne_nil_of_right_ne_nil _ (cons_ne_nil _ _)
  obtain ⟨notDot, notDots⟩ := not_or.mp dots
  have itself : prune dot last ([], 0) = ([last], 0) := by
    rw [prune, if_neg notDot, if_neg notDots]
    rfl
  obtain ⟨kept, left, eq, -⟩ := @exists_foldr_prune α dot _ segments [last] 0
  rw [foldr_append, foldr_cons, foldr_nil, itself, eq]
  simp

theorem merge_write {authority : Bool} (plain : slash ∉ last) (more : segments ≠ [])
    (above : List (List α)) :
    merge slash authority (write slash (above ++ [last])) ([slash].intercalate segments) =
      write slash (above ++ segments) := by
  have base : write slash (above ++ [last]) ≠ [] := write_ne_nil (by simp)
  rw [merge, if_neg fun both => base both.2, write_concat, rdropWhile_write plain, write_append,
    append_assoc, singleton_append, cons_intercalate more]

end IoJs.Library.DotSegments
