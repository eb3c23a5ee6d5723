import Mathlib.Data.UInt

/-!
# Lines of bytes

A line ends in CR LF and holds neither of the two. A block is a sequence of lines with an empty
line behind it. `readBlock` reads a block from the front of some bytes, and
`readBlock_eq_some_iff` says what it reads: the bytes have no other division into lines.
-/

namespace IoJs.Library

open List Option

variable {line : List UInt8} {lines : List (List UInt8)} {input rest : List UInt8} {byte : UInt8}

/-- What ends a line -/
def lineEnd : List UInt8 := [0x0D, 0x0A]

/-- The bytes of some lines -/
def joinLines (lines : List (List UInt8)) : List UInt8 := lines.flatMap (· ++ lineEnd)

@[simp] theorem joinLines_nil : joinLines [] = [] := rfl

@[simp] theorem joinLines_cons (line : List UInt8) (lines : List (List UInt8)) :
    joinLines (line :: lines) = line ++ lineEnd ++ joinLines lines := flatMap_cons

@[simp] theorem joinLines_append (left right : List (List UInt8)) :
    joinLines (left ++ right) = joinLines left ++ joinLines right := flatMap_append

/-- Neither CR nor LF -/
def Plain (line : List UInt8) : Prop := ∀ byte ∈ line, byte ≠ 0x0D ∧ byte ≠ 0x0A

theorem Plain.nil : Plain [] := by
  intro byte mem
  cases mem

theorem plain_cons :
    Plain (byte :: line) ↔ (byte ≠ 0x0D ∧ byte ≠ 0x0A) ∧ Plain line := forall_mem_cons

theorem plain_append {left right : List UInt8} :
    Plain (left ++ right) ↔ Plain left ∧ Plain right := forall_mem_append

/-- A line with something in it -/
def IsLine (line : List UInt8) : Prop := Plain line ∧ line ≠ []

/-- The lines up to an empty one, with what follows; `line` is what has been read of the first. -/
def readBlock (line : List UInt8) : List UInt8 → Option (List (List UInt8) × List UInt8)
  | [] => none
  | [_] => none
  | byte :: next :: rest =>
    if byte = 0x0D then
      if next = 0x0A then
        if line = [] then some ([], rest)
        else (readBlock [] rest).map fun block => (line :: block.1, block.2)
      else none
    else if byte = 0x0A then none
    else readBlock (line ++ [byte]) (next :: rest)

/-- The first line, with what follows -/
def readLine : List UInt8 → Option (List UInt8 × List UInt8)
  | [] => none
  | [_] => none
  | byte :: next :: rest =>
    if byte = 0x0D then if next = 0x0A then some ([], rest) else none
    else if byte = 0x0A then none
    else (readLine (next :: rest)).map fun read => (byte :: read.1, read.2)

theorem readLine_append (plain : Plain line) :
    readLine (line ++ (lineEnd ++ rest)) = some (line, rest) := by
  induction line with
  | nil => rfl
  | cons byte line ih =>
    obtain ⟨here, plain⟩ := plain_cons.mp plain
    have more : ∃ next others, line ++ (lineEnd ++ rest) = next :: others := by
      cases line with
      | nil => exact ⟨_, _, rfl⟩
      | cons => exact ⟨_, _, rfl⟩
    obtain ⟨next, others, eq⟩ := more
    have read := ih plain
    rw [eq] at read
    rw [cons_append, eq, readLine, if_neg here.1, if_neg here.2, read]
    rfl

theorem readBlock_cons (plain : byte ≠ 0x0D ∧ byte ≠ 0x0A) :
    readBlock line (byte :: rest) = readBlock (line ++ [byte]) rest := by
  cases rest with
  | nil => rfl
  | cons => rw [readBlock, if_neg plain.1, if_neg plain.2]

theorem readBlock_append (plain : Plain input) :
    readBlock line (input ++ rest) = readBlock (line ++ input) rest := by
  induction input generalizing line with
  | nil => rw [nil_append, append_nil]
  | cons byte input ih =>
    obtain ⟨here, plain⟩ := plain_cons.mp plain
    rw [cons_append, readBlock_cons here, ih plain, append_assoc]
    rfl

theorem readBlock_lineEnd : readBlock line (lineEnd ++ rest) = if line = [] then some ([], rest)
    else (readBlock [] rest).map fun block => (line :: block.1, block.2) := by
  rw [lineEnd, cons_append, cons_append, readBlock, if_pos rfl, if_pos rfl, nil_append]

theorem readBlock_joinLines (proper : ∀ line ∈ lines, IsLine line) :
    readBlock [] (joinLines lines ++ lineEnd ++ rest) = some (lines, rest) := by
  induction lines with
  | nil => rw [joinLines_nil, nil_append, readBlock_lineEnd, if_pos rfl]
  | cons line lines ih =>
    obtain ⟨⟨plain, filled⟩, proper⟩ := forall_mem_cons.mp proper
    have split : joinLines (line :: lines) ++ lineEnd ++ rest =
        line ++ (lineEnd ++ (joinLines lines ++ lineEnd ++ rest)) := by
      simp only [joinLines_cons, append_assoc]
    rw [split, readBlock_append plain, nil_append, readBlock_lineEnd, if_neg filled, ih proper]
    rfl

theorem readBlock_sound (plain : Plain line) (read : readBlock line input = some (lines, rest)) :
    (∀ line ∈ lines, IsLine line) ∧ line ++ input = joinLines lines ++ lineEnd ++ rest := by
  induction line, input using readBlock.induct generalizing lines rest with
  | case1 => cases read
  | case2 => cases read
  | case3 =>
    obtain ⟨rfl, rfl⟩ := Prod.mk.inj (some.inj read)
    exact ⟨nofun, rfl⟩
  | case4 line following filled ih =>
    rw [readBlock, if_pos rfl, if_pos rfl, if_neg filled, map_eq_some_iff] at read
    obtain ⟨⟨others, after⟩, read, eq⟩ := read
    obtain ⟨rfl, rfl⟩ := Prod.mk.inj eq
    obtain ⟨proper, eq⟩ := ih Plain.nil read
    rw [nil_append] at eq
    refine ⟨forall_mem_cons.mpr ⟨⟨plain, filled⟩, proper⟩, ?_⟩
    rw [joinLines_cons, eq]
    simp only [lineEnd, append_assoc, cons_append, nil_append]
  | case5 line next following other =>
    rw [readBlock, if_pos rfl, if_neg other] at read
    cases read
  | case6 =>
    cases read
  | case7 line byte next following noReturn noFeed ih =>
    rw [readBlock, if_neg noReturn, if_neg noFeed] at read
    have plain' : Plain (line ++ [byte]) :=
      plain_append.mpr ⟨plain, plain_cons.mpr ⟨⟨noReturn, noFeed⟩, Plain.nil⟩⟩
    obtain ⟨proper, eq⟩ := ih plain' read
    rw [append_assoc] at eq
    exact ⟨proper, eq⟩

theorem readBlock_eq_some_iff : readBlock [] input = some (lines, rest) ↔
    (∀ line ∈ lines, IsLine line) ∧ input = joinLines lines ++ lineEnd ++ rest := by
  constructor
  · intro read
    exact readBlock_sound Plain.nil read
  rintro ⟨proper, rfl⟩
  exact readBlock_joinLines proper

theorem joinLines_inj {lines' : List (List UInt8)} {rest' : List UInt8}
    (proper : ∀ line ∈ lines, IsLine line) (proper' : ∀ line ∈ lines', IsLine line)
    (eq : joinLines lines ++ lineEnd ++ rest = joinLines lines' ++ lineEnd ++ rest') :
    lines = lines' ∧ rest = rest' := by
  have read : readBlock [] (joinLines lines ++ lineEnd ++ rest) = some (lines, rest) :=
    readBlock_joinLines proper
  rw [eq, readBlock_joinLines proper'] at read
  exact ⟨(Prod.mk.inj (some.inj read)).1.symm, (Prod.mk.inj (some.inj read)).2.symm⟩

end IoJs.Library
