import IoJs.Path.Exposed

/-!
# `path.join` of Windows

The arguments that are not empty are joined with backslashes. Two slashes at the start of the result
would be taken for those of a UNC path; so they are replaced by one, unless the first argument is
clearly meant so (`clearlyUNC`).
-/

namespace IoJs.Path

open IoJs.Stream IoJs.RegExp IoJs.Library List

namespace Win32

/-- `/^[\\\/]{2}[^\\\/]/.test(paths[0])`; 'undefined' does not match. -/
def clearlyUNC : Option JSString → Bool
  | some (c :: c' :: c'' :: _) => isSlash c && isSlash c' && !isSlash c''
  | _ => false

def replaceLead (joined : JSString) : JSString :=
  if 2 ≤ (joined.takeWhile isSlash).length then backslash :: joined.dropWhile isSlash else joined

/-- `win32.join` -/
def join (arguments : List JSString) : JSString :=
  let paths := arguments.filter (!·.isEmpty)
  let joined := [backslash].intercalate paths
  normalize (if clearlyUNC paths.head? then joined else replaceLead joined)

/-- A path begins with two separators. -/
def StartsTwice (path : JSString) : Prop :=
  ∃ c c' rest, path = c :: c' :: rest ∧ isSlash c = true ∧ isSlash c' = true

/-- A leading run of separators is reduced to one. -/
def reduceLead (joined : JSString) : JSString :=
  if (joined.head?.map isSlash).getD false then backslash :: joined.dropWhile isSlash else joined

variable {path l : JSString} {c : UInt16}

/-! ## One separator at the start -/

theorem not_startsTwice_of_headed (headed : Headed l) : ¬StartsTwice l := by
  rintro ⟨c, c', rest, rfl, slash, -⟩
  have other : isSlash c = false := headed
  rw [slash] at other
  cases other

theorem not_startsTwice_cons (headed : Headed l) (c : UInt16) : ¬StartsTwice (c :: l) := by
  rintro ⟨first, c', rest, eq, -, slash⟩
  obtain ⟨rfl, rfl⟩ := List.cons.inj eq
  have other : isSlash c' = false := headed
  rw [slash] at other
  cases other

theorem headed_dropWhile (l : JSString) : Headed (l.dropWhile isSlash) := by
  induction l with
  | nil => rfl
  | cons c l ih =>
    cases slash : isSlash c with
    | true => rwa [dropWhile_cons_of_pos slash]
    | false =>
      rw [dropWhile_cons_of_neg (Bool.eq_false_iff.mp slash)]
      exact slash

theorem not_startsTwice_reduceLead (joined : JSString) : ¬StartsTwice (reduceLead joined) := by
  rw [reduceLead]
  split_ifs with slash
  · exact not_startsTwice_cons (headed_dropWhile joined) backslash
  · exact not_startsTwice_of_headed (Bool.eq_false_iff.mpr slash)

theorem splitUNC_eq_none (once : ¬StartsTwice path) : splitUNC path = none := by
  match path with
  | [] => rfl
  | [c] => rfl
  | c :: c' :: rest =>
    apply splitUNC_of_headed
    by_contra both
    rw [not_or, Bool.not_eq_false, Bool.not_eq_false] at both
    exact once ⟨c, c', rest, rfl, both.1, both.2⟩

theorem splitDevice_cons (slash : isSlash c = true) (headed : Headed l) :
    splitDevice (c :: l) = ⟨[], [c], l⟩ := by
  rw [splitDevice, splitDrive_of_headed_slash slash,
    splitUNC_eq_none (not_startsTwice_cons headed c)]
  exact if_pos slash

theorem normalize_cons (slash : isSlash c = true) (headed : Headed l) :
    normalize (c :: l) = normalize (backslash :: l) := by
  have back : isSlash backslash = true := rfl
  simp only [normalize, isAbsolute, splitDevice_cons slash headed, splitDevice_cons back headed,
    isEmpty_cons]

theorem normalize_replaceLead (joined : JSString) :
    normalize (replaceLead joined) = normalize (reduceLead joined) := by
  rw [replaceLead, reduceLead]
  cases joined with
  | nil => rfl
  | cons c l =>
    by_cases slash : isSlash c = true
    · rw [if_pos (show ((c :: l).head?.map isSlash).getD false = true from slash)]
      split_ifs with run
      · rfl
      have alone : l.takeWhile isSlash = [] := by
        rw [takeWhile_cons_of_pos slash, length_cons] at run
        exact eq_nil_of_length_eq_zero (by omega)
      have rest : l.dropWhile isSlash = l := by
        rw [← nil_append (l.dropWhile isSlash), ← alone, takeWhile_append_dropWhile]
      rw [dropWhile_cons_of_pos slash, rest]
      exact normalize_cons slash (rest ▸ headed_dropWhile l)
    rw [if_neg (show ¬((c :: l).head?.map isSlash).getD false = true from slash), if_neg]
    rw [takeWhile_cons_of_neg slash]
    exact Nat.not_succ_le_zero 1

/-! ## Two of them -/

theorem isUnc_of_splitDrive {device rest : JSString}
    (read : splitDrive path = some (device, rest)) :
    isUnc device = false := by
  match path with
  | [] => cases read
  | [c] => cases read
  | c :: c' :: path =>
    rw [splitDrive] at read
    split_ifs at read with drive
    obtain ⟨-, rfl⟩ := drive
    obtain ⟨rfl, rfl⟩ := Prod.mk.inj (Option.some.inj read)
    rfl

theorem not_startsTwice_normalize (once : ¬StartsTwice path) : ¬StartsTwice (normalize path) := by
  obtain ⟨d, has⟩ := exists_hasDevice path
  have headed : Headed (normalTail path) := headed_writeTail (proper_render _ _)
  rw [normalize_eq has]
  cases d with
  | none =>
    cases isAbsolute path with
    | true => exact not_startsTwice_cons headed backslash
    | false => exact not_startsTwice_of_headed headed
  | drive =>
    refine not_startsTwice_of_headed ?_
    have valid := has.valid
    cases valid with
    | drive isLetter => exact not_isSlash_of_isLetter isLetter
  | unc =>
    have unc : isUnc (splitDevice path).device = true := has.unc
    rw [splitDevice, splitUNC_eq_none once, Option.or_none] at unc
    split at unc
    · rename_i device rest drive
      rw [splitSlash_device, isUnc_of_splitDrive drive] at unc
      cases unc
    rw [splitSlash_device] at unc
    cases unc

/-- **A path is a UNC path only if it is meant so.** -/
theorem join_spec (arguments : List JSString) :
    (StartsTwice (join arguments) → clearlyUNC (arguments.find? (!·.isEmpty)) = true) ∧
      (clearlyUNC (arguments.find? (!·.isEmpty)) = false → join arguments =
          normalize (reduceLead ([backslash].intercalate (arguments.filter (!·.isEmpty))))) := by
  have reduced (other : clearlyUNC (arguments.find? (!·.isEmpty)) = false) : join arguments =
        normalize (reduceLead ([backslash].intercalate (arguments.filter (!·.isEmpty)))) := by
    rw [join, List.head?_filter, other, ← normalize_replaceLead]
    rfl
  refine ⟨fun twice => ?_, reduced⟩
  by_contra other
  rw [Bool.not_eq_true] at other
  rw [reduced other] at twice
  exact not_startsTwice_normalize (not_startsTwice_reduceLead _) twice

end Win32

end IoJs.Path
