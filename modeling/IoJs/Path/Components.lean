import IoJs.Library.Walk
import IoJs.RegExp

/-!
# The components of a path

`normalizeArray` of `path.js` goes through the components of a path and keeps a list of those that
count. It is a walk (`normalizeArray_eq`): an empty component and `.` stay, `..` goes up, and every
other one goes down. The list is the position that the walk has come to, written with `..`.
-/

namespace IoJs.Path

open IoJs.Stream IoJs.RegExp IoJs.Library List
open IoJs.Library.Position (start go walk)

def dot : JSString := js "."

def dotdot : JSString := js ".."

/-- What `normalizeArray` does with one part -/
def normalizePart (allowAboveRoot : Bool) (res : List JSString) (p : JSString) : List JSString :=
  -- ignore empty parts
  if p = [] ∨ p = dot then res
  else if p = dotdot then
    if res ≠ [] ∧ res.getLast? ≠ some dotdot then res.dropLast
    else if allowAboveRoot then res ++ [dotdot]
    else res
  else res ++ [p]

def normalizeArray (parts : List JSString) (allowAboveRoot : Bool) : List JSString :=
  parts.foldl (normalizePart allowAboveRoot) []

/-- The move that a component stands for -/
def move (p : JSString) : Move JSString :=
  if p = [] ∨ p = dot then .stay
  else if p = dotdot then .up
  else .down p

/-- A component that goes down -/
structure Proper (p : JSString) : Prop where
  filled : p ≠ []
  notDot : p ≠ dot
  notDotdot : p ≠ dotdot

variable {above : Bool} {p : JSString} {parts : List JSString} {q : Position JSString}
variable {name : JSString}

theorem move_of_proper (proper : Proper p) : move p = .down p := by
  rw [move, if_neg (not_or.mpr ⟨proper.filled, proper.notDot⟩), if_neg proper.notDotdot]

theorem move_dotdot : move dotdot = .up := rfl

theorem move_eq_down (down : move p = .down name) : p = name ∧ Proper name := by
  rw [move] at down
  split_ifs at down with stays up
  obtain rfl := Move.down.inj down
  rw [not_or] at stays
  exact ⟨rfl, stays.1, stays.2, up⟩

/-- A position, as a list of components -/
def render (q : Position JSString) : List JSString := List.replicate q.ups dotdot ++ q.names

theorem map_move_render (proper : ∀ name ∈ q.names, Proper name) :
    (render q).map move = q.moves := by
  have names : q.names.map move = q.names.map .down :=
    map_congr_left fun name mem => move_of_proper (proper name mem)
  rw [render, map_append, map_replicate, move_dotdot, names, Position.moves]

theorem not_below_render (ups : Nat) :
    ¬(render ⟨ups, []⟩ ≠ [] ∧ (render ⟨ups, []⟩).getLast? ≠ some dotdot) := by
  rintro ⟨filled, other⟩
  cases ups with
  | zero => exact filled rfl
  | succ ups =>
    refine other ?_
    rw [render, append_nil, replicate_succ', List.getLast?_concat]

theorem below_render (ups : Nat) (names : List JSString) (notDotdot : name ≠ dotdot) :
    render ⟨ups, names ++ [name]⟩ ≠ [] ∧
      (render ⟨ups, names ++ [name]⟩).getLast? ≠ some dotdot := by
  have last : (render ⟨ups, names ++ [name]⟩).getLast? = some name := by
    rw [render, ← append_assoc, List.getLast?_concat]
  constructor
  · intro empty
    rw [empty] at last
    cases last
  rw [last]
  exact fun same => notDotdot (Option.some.inj same)

theorem normalizePart_render (above : Bool) (p : JSString)
    (proper : ∀ name ∈ q.names, Proper name) :
    normalizePart above (render q) p = render (go above q (move p)) := by
  rw [normalizePart, move]
  by_cases stays : p = [] ∨ p = dot
  · rw [if_pos stays, if_pos stays]
    rfl
  rw [if_neg stays, if_neg stays]
  by_cases up : p = dotdot
  · rw [if_pos up, if_pos up]
    obtain ⟨ups, names⟩ := q
    rcases eq_nil_or_concat names with rfl | ⟨before, name, split⟩
    · rw [if_neg (not_below_render ups), Position.go_up_of_start]
      cases above with
      | true =>
        simp only [if_true, render, append_nil]
        exact (replicate_succ' ..).symm
      | false => rfl
    rw [concat_eq_append] at split
    subst split
    have mem : name ∈ before ++ [name] := mem_concat_self
    rw [if_pos (below_render ups before (proper name mem).notDotdot),
      Position.go_up_of_names above (append_ne_nil_of_right_ne_nil _ (by simp))]
    simp only [render, ← append_assoc, dropLast_concat]
  rw [if_neg up, if_neg up]
  simp only [render, go, append_assoc]

/-- The walk along the components of a path -/
def place (above : Bool) (parts : List JSString) : Position JSString :=
  walk above start (parts.map move)

theorem mem_names_place (mem : name ∈ (place above parts).names) : name ∈ parts ∧ Proper name := by
  rcases Position.mem_names_walk mem with none | down
  · cases none
  obtain ⟨p, part, moved⟩ := List.mem_map.mp down
  obtain ⟨rfl, proper⟩ := move_eq_down moved
  exact ⟨part, proper⟩

theorem proper_place (above : Bool) (parts : List JSString) :
    ∀ name ∈ (place above parts).names, Proper name := fun _ mem => (mem_names_place mem).2

theorem place_concat (above : Bool) (parts : List JSString) (p : JSString) :
    place above (parts ++ [p]) = go above (place above parts) (move p) := by
  rw [place, map_append, Position.walk_append]
  rfl

theorem normalizeArray_eq (parts : List JSString) (above : Bool) :
    normalizeArray parts above = render (place above parts) := by
  induction parts using List.reverseRecOn with
  | nil => rfl
  | append_singleton parts p ih =>
    rw [place_concat, ← normalizePart_render above p (proper_place above parts), ← ih,
      normalizeArray, foldl_append]
    rfl

section

variable (above : Bool)

theorem place_render_append (first second : List JSString) :
    place above (render (place above first) ++ second) = place above (first ++ second) := by
  rw [place, map_append, map_move_render (proper_place above first), place,
    Position.walk_moves_append, place, map_append]

theorem place_render (parts : List JSString) :
    place above (render (place above parts)) = place above parts := by
  have rendered := place_render_append above parts []
  rwa [append_nil, append_nil] at rendered

theorem place_append_stay (parts : List JSString) {rest : List JSString}
    (stays : ∀ p ∈ rest, move p = .stay) : place above (parts ++ rest) = place above parts := by
  induction rest using List.reverseRecOn with
  | nil => rw [append_nil]
  | append_singleton rest p ih =>
    obtain ⟨before, last⟩ := forall_mem_append.mp stays
    rw [← append_assoc, place_concat, last p mem_cons_self, ih before]
    rfl

theorem place_stay_append {first : List JSString}
    (stays : ∀ p ∈ first, move p = .stay) (parts : List JSString) :
    place above (first ++ parts) = place above parts := by
  have none := place_append_stay above [] stays
  rw [place, map_append, Position.walk_append]
  exact congrArg (fun q => walk above q (parts.map move)) none

end

theorem ups_place_false (parts : List JSString) : (place false parts).ups = 0 :=
  Position.ups_walk_false start _

/-! ## What `normalize` writes -/

/-- The end of `normalize`, of POSIX and of Windows: the path behind its root -/
def writeTail (sep : UInt16) (isAbsolute trailingSlash : Bool) (parts : List JSString) : JSString :=
  let tail := [sep].intercalate parts
  let tail := if tail = [] ∧ ¬isAbsolute then dot else tail
  if tail ≠ [] ∧ trailingSlash then tail ++ [sep] else tail

def tailComponents (isAbsolute trailingSlash : Bool) (parts : List JSString) : List JSString :=
  if parts = [] then
    if isAbsolute then [[]] else if trailingSlash then [dot, []] else [dot]
  else if trailingSlash then parts ++ [[]]
  else parts

variable {sep : UInt16} {absolute trailing : Bool}

theorem intercalate_cons (sep : UInt16) (part : JSString) (filled : parts ≠ []) :
    [sep].intercalate (part :: parts) = part ++ sep :: [sep].intercalate parts := by
  rw [intercalate_cons_of_ne_nil filled, append_assoc, singleton_append]

theorem intercalate_concat_nil (sep : UInt16) (filled : parts ≠ []) :
    [sep].intercalate (parts ++ [[]]) = [sep].intercalate parts ++ [sep] := by
  induction parts with
  | nil => exact absurd rfl filled
  | cons part parts ih =>
    by_cases last : parts = []
    · subst last
      rw [singleton_append, intercalate_cons sep part (cons_ne_nil _ _),
        intercalate_singleton, intercalate_singleton]
    rw [cons_append, intercalate_cons sep part (by simp), ih last,
      intercalate_cons sep part last, append_assoc, cons_append]

theorem intercalate_ne_nil (sep : UInt16) (filled : parts ≠ []) (proper : ∀ p ∈ parts, p ≠ []) :
    [sep].intercalate parts ≠ [] := by
  obtain ⟨part, parts, rfl⟩ := exists_cons_of_ne_nil filled
  have some_ := proper part mem_cons_self
  by_cases last : parts = []
  · subst last
    rw [intercalate_singleton]
    exact some_
  rw [intercalate_cons sep part last]
  exact append_ne_nil_of_left_ne_nil some_ _

theorem tailComponents_ne_nil : tailComponents absolute trailing parts ≠ [] := by
  rw [tailComponents]
  split_ifs with empty
  all_goals simp [empty]

theorem writeTail_eq (proper : ∀ p ∈ parts, p ≠ []) : writeTail sep absolute trailing parts =
    [sep].intercalate (tailComponents absolute trailing parts) := by
  by_cases empty : parts = []
  · subst empty
    cases absolute with
    | true => rfl
    | false =>
      cases trailing with
      | true => rfl
      | false => exact intercalate_singleton.symm
  have body : [sep].intercalate parts ≠ [] := intercalate_ne_nil sep empty proper
  rw [tailComponents, if_neg empty]
  simp only [writeTail, body, ne_eq, not_false_eq_true, false_and, if_false, true_and]
  cases trailing with
  | true => exact (intercalate_concat_nil sep empty).symm
  | false => rfl

theorem exists_intercalate_concat (sep : UInt16) (parts : List JSString) (last : JSString) :
    ∃ front, [sep].intercalate (parts ++ [last]) = front ++ last := by
  induction parts with
  | nil => exact ⟨[], intercalate_singleton⟩
  | cons part parts ih =>
    obtain ⟨front, eq⟩ := ih
    refine ⟨part ++ sep :: front, ?_⟩
    rw [cons_append, intercalate_cons sep part (by simp), eq, append_assoc, cons_append]

theorem splitOn_writeTail (absolute trailing : Bool) (proper : ∀ p ∈ parts, p ≠ [] ∧ sep ∉ p)
    (other : sep ∉ dot) :
    (writeTail sep absolute trailing parts).splitOn sep =
      tailComponents absolute trailing parts := by
  rw [writeTail_eq fun p mem => (proper p mem).1]
  refine splitOn_intercalate sep ?_ tailComponents_ne_nil
  intro p mem
  rw [tailComponents] at mem
  split_ifs at mem
  · rw [mem_singleton.mp mem]
    exact not_mem_nil
  · rcases mem_pair.mp mem with rfl | rfl
    · exact other
    · exact not_mem_nil
  · rw [mem_singleton.mp mem]
    exact other
  · rcases mem_append.mp mem with part | last
    · exact (proper p part).2
    rw [mem_singleton.mp last]
    exact not_mem_nil
  · exact (proper p mem).2

theorem place_tailComponents (above : Bool) :
    place above (tailComponents absolute trailing parts) = place above parts := by
  rw [tailComponents]
  split_ifs with empty
  · rw [empty]
    rfl
  · rw [empty]
    rfl
  · rw [empty]
    rfl
  · refine place_append_stay above parts fun p mem => ?_
    rw [mem_singleton.mp mem]
    rfl
  · rfl

theorem exists_head_of_relative (trailing : Bool) (proper : ∀ p ∈ parts, p ≠ []) :
    ∃ p rest, tailComponents false trailing parts = p :: rest ∧ p ≠ [] := by
  cases parts with
  | nil =>
    cases trailing with
    | true => exact ⟨dot, [[]], rfl, by decide⟩
    | false => exact ⟨dot, [], rfl, by decide⟩
  | cons p parts =>
    have some_ := proper p mem_cons_self
    cases trailing with
    | true => exact ⟨p, parts ++ [[]], rfl, some_⟩
    | false => exact ⟨p, parts, rfl, some_⟩

theorem mem_tailComponents (mem : p ∈ tailComponents absolute trailing parts) :
    p = [] ∨ p ∈ parts ∨ (p = dot ∧ parts = [] ∧ absolute = false) := by
  rw [tailComponents] at mem
  split_ifs at mem with empty absolute' trailing' trailing'
  · exact .inl (mem_singleton.mp mem)
  · rcases mem_pair.mp mem with here | none
    · exact .inr (.inr ⟨here, empty, Bool.eq_false_iff.mpr absolute'⟩)
    · exact .inl none
  · exact .inr (.inr ⟨mem_singleton.mp mem, empty, Bool.eq_false_iff.mpr absolute'⟩)
  · rcases mem_append.mp mem with part | none
    · exact .inr (.inl part)
    · exact .inl (mem_singleton.mp none)
  · exact .inr (.inl mem)

theorem nil_notMem_dropLast_tailComponents (absolute trailing : Bool)
    (proper : ∀ p ∈ parts, p ≠ []) :
    [] ∉ (tailComponents absolute trailing parts).dropLast := by
  have notDot : dot ≠ [] := by decide
  rw [tailComponents]
  split_ifs
  · exact not_mem_nil
  · exact fun mem => notDot (mem_singleton.mp mem).symm
  · exact not_mem_nil
  · rw [dropLast_concat]
    exact fun mem => proper [] mem rfl
  · exact fun mem => proper [] (dropLast_subset _ mem) rfl

theorem getLast_tailComponents (proper : ∀ p ∈ parts, p ≠ []) :
    (tailComponents absolute trailing parts).getLast? = some [] ↔
      trailing = true ∨ (absolute = true ∧ parts = []) := by
  rw [tailComponents]
  split_ifs with empty absolute' trailing' trailing'
  · simp [absolute', empty]
  · simp [trailing']
  · have notDot : dot ≠ [] := by decide
    simp [absolute', trailing', notDot]
  · simp [trailing']
  simp only [trailing', empty, and_false, or_false, Bool.false_eq_true, iff_false]
  exact fun last => proper [] (mem_of_getLast? last) rfl

end IoJs.Path
