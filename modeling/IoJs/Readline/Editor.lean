import IoJs.Library.Match
import IoJs.Readline.Lines
import Mathlib.Data.List.Chain

/-!
# Editing a line at a terminal

`_ttyWrite` edits `line` around `cursor`, and goes through `history`. An operation that throws has
no next state: a word is cut out by a pattern, whose match might be null, and an entry of the
history might be undefined. Neither happens (`valid_of_actions`).
-/

namespace IoJs.Readline

open IoJs.Library IoJs.Stream List
open IoJs.Library.RegExp (Pattern)

/-! ## Strings -/

/-- A position of `slice`, which counts from the end if it is negative -/
def position (length : Nat) (i : Int) : Nat :=
  if i < 0 then (length + i).toNat else min i.toNat length

/-- `string.slice(start, stop)` -/
def slice (string : JSString) (start stop : Int) : JSString :=
  (string.take (position string.length stop)).drop (position string.length start)

/-- `string.slice(start)` -/
def sliceFrom (string : JSString) (start : Int) : JSString := slice string start string.length

/-- The classes of the patterns -/
inductive CharClass where
  /-- `\s` -/
  | space
  /-- `\w` -/
  | word
  /-- `\W` -/
  | nonWord
  /-- `[^\w\s]` -/
  | mark

/-- `kSpaceRanges` -/
def isSpace (ch : UInt16) : Bool :=
  (0x09 ≤ ch && ch ≤ 0x0D) || ch == 0x20 || ch == 0xA0 || ch == 0x1680 || ch == 0x180E ||
    (0x2000 ≤ ch && ch ≤ 0x200A) || ch == 0x2028 || ch == 0x2029 || ch == 0x202F || ch == 0x205F ||
    ch == 0x3000 || ch == 0xFEFF

/-- `kWordRanges` -/
def isWord (ch : UInt16) : Bool :=
  (0x30 ≤ ch && ch ≤ 0x39) || (0x41 ≤ ch && ch ≤ 0x5A) || ch == 0x5F || (0x61 ≤ ch && ch ≤ 0x7A)

def CharClass.sat : CharClass → UInt16 → Bool
  | space, ch => isSpace ch
  | word, ch => isWord ch
  | nonWord, ch => !isWord ch
  | mark, ch => !isWord ch && !isSpace ch

/-- `/([^\w\s]+|\w+|)\s*$/` -/
def wordBefore : Pattern CharClass :=
  [[.plus .mark, .star .space, .stop], [.plus .word, .star .space, .stop], [.star .space, .stop]]

/-- `/^(\s+|\W+|\w+)\s*/` -/
def wordBehind : Pattern CharClass :=
  [[.start, .plus .space, .star .space], [.start, .plus .nonWord, .star .space],
    [.start, .plus .word, .star .space]]

/-- What two strings begin with -/
def shared : JSString → JSString → JSString
  | a :: min, b :: max => if a = b then a :: shared min max else []
  | _, _ => []

/-- `commonPrefix` -/
def common (strings : List JSString) : JSString :=
  let sorted := strings.mergeSort
  match sorted.head?, sorted.getLast? with
  | some min, some max => shared min max
  | _, _ => []

/-! ## The editor -/

def kHistorySize : Nat := 30

/-- How far the cursor is moved -/
inductive Distance where
  | finite (dx : Int)
  | minusInfinity
  | plusInfinity

structure Editor where
  line : JSString
  cursor : Int
  history : List JSString
  historyIndex : Int
  sawReturn : Bool
  /-- The pasted lines whose listeners are running, each with those behind it -/
  pasting : List (List JSString)
  /-- What `_onLine` was called with -/
  delivered : List JSString
  /-- What the completer was called with -/
  asked : List JSString

namespace Editor

/-- The constructor, for a terminal -/
def new : Editor :=
  { line := [], cursor := 0, history := [], historyIndex := -1, sawReturn := false, pasting := [],
    delivered := [], asked := [] }

/-- `_moveCursor`: a sum with an infinity is beyond both bounds. -/
def moveCursor (e : Editor) (dx : Distance) : Editor :=
  let cursor : Int :=
    match dx with
    | .finite dx =>
      if e.cursor + dx < 0 then 0
      else if e.cursor + dx > e.line.length then e.line.length
      else e.cursor + dx
    | .minusInfinity => 0
    | .plusInfinity => e.line.length
  { e with cursor }

def insertString (e : Editor) (c : JSString) : Editor :=
  if e.cursor < e.line.length then
    let beg := slice e.line 0 e.cursor
    let rest := slice e.line e.cursor e.line.length
    { e with line := beg ++ c ++ rest, cursor := e.cursor + c.length }
  else moveCursor { e with line := e.line ++ c, cursor := e.cursor + c.length } (.finite 0)

/-- `_tabComplete`, up to the call of the completer -/
def tabComplete (e : Editor) : Editor := { e with asked := e.asked ++ [slice e.line 0 e.cursor] }

/-- The callback of the completer; `none` stands for an error. -/
def completed (e : Editor) : Option (List JSString × JSString) → Editor
  | none => e
  | some ([], _) => e
  | some ([completion], completeOn) => e.insertString (sliceFrom completion completeOn.length)
  | some (completions, completeOn) =>
    let f := completions.filter (· ≠ [])
    let start := common f
    if start.length > completeOn.length then e.insertString (sliceFrom start completeOn.length)
    else e

def wordLeft (e : Editor) : Option Editor :=
  if e.cursor > 0 then
    (wordBefore.firstMatch CharClass.sat (slice e.line 0 e.cursor)).map fun word =>
      e.moveCursor (.finite (-word.length))
  else some e

def wordRight (e : Editor) : Option Editor :=
  if e.cursor < e.line.length then
    (wordBehind.firstMatch CharClass.sat (sliceFrom e.line e.cursor)).map fun word =>
      e.moveCursor (.finite word.length)
  else some e

def deleteLeft (e : Editor) : Editor :=
  if e.cursor > 0 ∧ e.line.length > 0 then
    { e with
      line := slice e.line 0 (e.cursor - 1) ++ slice e.line e.cursor e.line.length
      cursor := e.cursor - 1 }
  else e

def deleteRight (e : Editor) : Editor :=
  { e with line := slice e.line 0 e.cursor ++ slice e.line (e.cursor + 1) e.line.length }

def deleteWordLeft (e : Editor) : Option Editor :=
  if e.cursor > 0 then
    (wordBefore.firstMatch CharClass.sat (slice e.line 0 e.cursor)).map fun word =>
      let leading := slice (slice e.line 0 e.cursor) 0
        ((slice e.line 0 e.cursor).length - word.length)
      { e with line := leading ++ slice e.line e.cursor e.line.length, cursor := leading.length }
  else some e

def deleteWordRight (e : Editor) : Option Editor :=
  if e.cursor < e.line.length then
    (wordBehind.firstMatch CharClass.sat (sliceFrom e.line e.cursor)).map fun word =>
      { e with
        line := slice e.line 0 e.cursor ++ sliceFrom (sliceFrom e.line e.cursor) word.length }
  else some e

def deleteLineLeft (e : Editor) : Editor :=
  { e with line := sliceFrom e.line e.cursor, cursor := 0 }

def deleteLineRight (e : Editor) : Editor := { e with line := slice e.line 0 e.cursor }

def clearLine (e : Editor) : Editor := { e.moveCursor .plusInfinity with line := [], cursor := 0 }

/-- `this.history.unshift(this.line)`; only so many are stored. -/
def unshift (e : Editor) : List JSString :=
  if (e.line :: e.history).length > kHistorySize then (e.line :: e.history).dropLast
  else e.line :: e.history

def addHistory (e : Editor) : JSString × Editor :=
  if e.line.length = 0 then ([], e)
  else
    let history :=
      if e.history.length = 0 ∨ e.history.head? ≠ some e.line then e.unshift else e.history
    (history.headD [], { e with history, historyIndex := -1 })

/-- `_line`, up to the listener -/
def deliver (e : Editor) : Editor :=
  let added := e.addHistory
  { added.2.clearLine with delivered := added.2.delivered ++ [added.1] }

/-- `this.history[i]` -/
def entry (e : Editor) (i : Int) : Option JSString :=
  if i < 0 then none else e.history[i.toNat]?

def historyNext (e : Editor) : Option Editor :=
  if e.historyIndex > 0 then
    (e.entry (e.historyIndex - 1)).map fun line =>
      { e with historyIndex := e.historyIndex - 1, line, cursor := line.length }
  else if e.historyIndex = 0 then some { e with historyIndex := -1, cursor := 0, line := [] }
  else some e

def historyPrev (e : Editor) : Option Editor :=
  if e.historyIndex + 1 < e.history.length then
    (e.entry (e.historyIndex + 1)).map fun line =>
      { e with historyIndex := e.historyIndex + 1, line, cursor := line.length }
  else some e

def prompt (e : Editor) (preserveCursor : Bool) : Editor :=
  if preserveCursor then e else { e with cursor := 0 }

/-! ## Keys -/

inductive KeyName where
  | escape
  | enter
  | «return»
  | backspace
  | delete
  | tab
  | left
  | right
  | up
  | down
  | home
  | «end»
  | letter (c : Char)
  | other
  deriving DecidableEq

structure Key where
  name : KeyName := .other
  ctrl : Bool := false
  shift : Bool := false
  «meta» : Bool := false

/-- Control and shift pressed -/
def controlShift (e : Editor) : KeyName → Editor
  | .backspace => e.deleteLineLeft
  | .delete => e.deleteLineRight
  | _ => e

/-- Control key pressed. Of `c`, `l` and `z` nothing is left but what goes to other objects. -/
def control (e : Editor) : KeyName → Option Editor
  | .letter 'h' => some e.deleteLeft
  | .letter 'd' =>
    -- with nothing on the line the interface is closed
    if e.cursor = 0 ∧ e.line.length = 0 then some e
    else if e.cursor < e.line.length then some e.deleteRight
    else some e
  | .letter 'u' => some { e with cursor := 0, line := [] }
  | .letter 'k' => some e.deleteLineRight
  | .letter 'a' => some (e.moveCursor .minusInfinity)
  | .letter 'e' => some (e.moveCursor .plusInfinity)
  | .letter 'b' => some (e.moveCursor (.finite (-1)))
  | .letter 'f' => some (e.moveCursor (.finite 1))
  | .letter 'n' => e.historyNext
  | .letter 'p' => e.historyPrev
  | .letter 'w' => e.deleteWordLeft
  | .backspace => e.deleteWordLeft
  | .delete => e.deleteWordRight
  | .left => e.wordLeft
  | .right => e.wordRight
  | _ => some e

/-- Meta key pressed -/
def metaKey (e : Editor) : KeyName → Option Editor
  | .letter 'b' => e.wordLeft
  | .letter 'f' => e.wordRight
  | .letter 'd' => e.deleteWordRight
  | .delete => e.deleteWordRight
  | .backspace => e.deleteWordLeft
  | _ => some e

/-- The loop over the lines of a text, up to the next listener -/
def paste (e : Editor) : List JSString → Editor
  | [] => e
  | line :: lines =>
    if lines = [] then e.insertString line
    else { (e.insertString line).deliver with pasting := lines :: e.pasting }

/-- No modifier keys used. `s` is split at `/\r\n|\n|\r/`, which is where lines end. -/
def plainKey (e : Editor) (s : JSString) : KeyName → Option Editor
  | .return => some (deliver { e with sawReturn := true })
  | .enter => some (if e.sawReturn then { e with sawReturn := false } else e.deliver)
  | .backspace => some e.deleteLeft
  | .delete => some e.deleteRight
  | .tab => some e.tabComplete
  | .left => some (e.moveCursor (.finite (-1)))
  | .right => some (e.moveCursor (.finite 1))
  | .home => some (e.moveCursor .minusInfinity)
  | .end => some (e.moveCursor .plusInfinity)
  | .up => e.historyPrev
  | .down => e.historyNext
  | _ => some (if s ≠ [] then e.paste (splitLineEnding s) else e)

def ttyWrite (e : Editor) (s : JSString) (key : Key) : Option Editor :=
  if key.name = .escape then some e
  else if key.ctrl && key.shift then some (e.controlShift key.name)
  else if key.ctrl then e.control key.name
  else if key.meta then e.metaKey key.name
  else
    plainKey { e with sawReturn := if key.name ≠ .enter then false else e.sawReturn } s key.name

inductive Action where
  | ttyWrite (s : JSString) (key : Key)
  | prompt (preserveCursor : Bool)
  | clearLine
  /-- The completer answers. -/
  | completed (result : Option (List JSString × JSString))
  /-- The listener of a pasted line returns. -/
  | returns
  /-- The listener of a pasted line throws. -/
  | throws

/-- There is no next state where an operation throws. -/
def step (e : Editor) : Action → Option Editor
  | .ttyWrite s key => e.ttyWrite s key
  | .prompt preserveCursor => some (e.prompt preserveCursor)
  | .clearLine => some e.clearLine
  | .completed result => some (e.completed result)
  | .returns =>
    match e.pasting with
    | [] => some e
    | lines :: pasting => some (paste { e with pasting } lines)
  | .throws => some { e with pasting := e.pasting.tail }

/-! ## What holds of an editor -/

/-- The cursor is on the line, the index in the history or before it, and the history has a few
entries, none empty, each different from the next. -/
structure Valid (e : Editor) : Prop where
  cursor_nonneg : 0 ≤ e.cursor
  cursor_le : e.cursor ≤ e.line.length
  index_ge : -1 ≤ e.historyIndex
  index_lt : e.historyIndex < e.history.length
  few : e.history.length ≤ kHistorySize
  filled : ∀ entry ∈ e.history, entry ≠ []
  distinct : e.history.IsChain (· ≠ ·)

theorem valid_new : Valid new where
  cursor_nonneg := Int.le_refl _
  cursor_le := Int.le_refl _
  index_ge := Int.le_refl _
  index_lt := by decide
  few := Nat.zero_le _
  filled entry mem := absurd mem not_mem_nil
  distinct := .nil

end Editor

/-! ## Slices -/

theorem position_of_nonneg {length : Nat} {i : Int} (nonneg : 0 ≤ i) (le : i ≤ length) :
    (position length i : Int) = i := by
  rw [position, if_neg (by omega)]
  omega

variable {string : JSString} {start : Int}

theorem length_slice {stop : Int} (nonneg : 0 ≤ start)
    (le : start ≤ stop) (inside : stop ≤ string.length) :
    ((slice string start stop).length : Int) = stop - start := by
  have first := position_of_nonneg nonneg (Int.le_trans le inside)
  have last := position_of_nonneg (Int.le_trans nonneg le) inside
  rw [slice, length_drop, length_take]
  omega

theorem length_sliceFrom (nonneg : 0 ≤ start) (inside : start ≤ string.length) :
    ((sliceFrom string start).length : Int) = string.length - start :=
  length_slice nonneg inside (Int.le_refl _)

/-! ## The matches -/

open Library.RegExp in
theorem wordBefore_matches (string : JSString) :
    ∃ word, wordBefore.firstMatch CharClass.sat string = some word := by
  rw [← Option.isSome_iff_exists, isSome_firstMatch]
  have last : search CharClass.sat [.star .space, .stop] true string = true :=
    search_iff.mpr ⟨string, [], (append_nil _).symm, rfl⟩
  rw [Pattern.test, wordBefore, any_cons, any_cons, any_cons, last]
  simp

open Library.RegExp in
theorem many_true {α : Type} (p : α → Bool) (first : Bool) (input : List α) :
    many p (fun _ _ => true) first input = true := by
  rw [many_iff]
  exact ⟨[], input, rfl, nofun, rfl⟩

open Library.RegExp in
theorem wordBehind_matches (some_ : string ≠ []) :
    ∃ word, wordBehind.firstMatch CharClass.sat string = some word := by
  obtain ⟨ch, rest, rfl⟩ := exists_cons_of_ne_nil some_
  have begins : ∀ c : CharClass, c.sat ch = true →
      search CharClass.sat [.start, .plus c, .star .space] true (ch :: rest) = true := by
    intro c satisfied
    rw [search_start]
    show (true && once c.sat _ _) = true
    rw [Bool.true_and, once_iff]
    refine ⟨ch, rest, rfl, satisfied, many_iff.mpr ⟨[], rest, rfl, ?_, ?_⟩⟩
    · exact nofun
    · exact many_true _ _ _
  rw [← Option.isSome_iff_exists, isSome_firstMatch, Pattern.test, wordBehind, any_cons,
    any_cons, any_cons]
  cases word : isWord ch with
  | true =>
    rw [begins .word word]
    simp
  | false => simp [begins, CharClass.sat, word]

namespace Editor

variable {e : Editor}

/-! ## Each operation -/

namespace Valid

theorem edit (valid : Valid e) {line : JSString} {cursor : Int} (nonneg : 0 ≤ cursor)
    (le : cursor ≤ line.length) : Valid { e with line, cursor } :=
  { valid with cursor_nonneg := nonneg, cursor_le := le }

theorem length_before (valid : Valid e) : ((slice e.line 0 e.cursor).length : Int) = e.cursor := by
  simp [length_slice (Int.le_refl _) valid.cursor_nonneg valid.cursor_le]

end Valid

theorem moveCursor_bounds (e : Editor) (dx : Distance) :
    0 ≤ (e.moveCursor dx).cursor ∧ (e.moveCursor dx).cursor ≤ e.line.length := by
  cases dx with
  | minusInfinity => exact ⟨Int.le_refl _, Int.natCast_nonneg _⟩
  | plusInfinity => exact ⟨Int.natCast_nonneg _, Int.le_refl _⟩
  | finite dx => grind [moveCursor]

namespace Valid

section

variable (valid : Valid e)
include valid

theorem moveCursor (dx : Distance) : Valid (e.moveCursor dx) :=
  valid.edit (moveCursor_bounds e dx).1 (moveCursor_bounds e dx).2

theorem insertString (c : JSString) : Valid (e.insertString c) := by
  have before := valid.length_before
  rw [Editor.insertString]
  split_ifs with inside
  · refine valid.edit (by omega) ?_
    rw [length_append, length_append]
    omega
  let longer : Editor := { e with line := e.line ++ c, cursor := e.cursor + c.length }
  have bounds := moveCursor_bounds longer (.finite 0)
  exact valid.edit bounds.1 bounds.2

theorem completed (result : Option (List JSString × JSString)) : Valid (e.completed result) := by
  rcases result with _ | ⟨_ | ⟨completion, _ | ⟨next, completions⟩⟩, completeOn⟩
  · exact valid
  · exact valid
  · exact valid.insertString _
  rw [Editor.completed]
  · split_ifs
    · exact valid.insertString _
    · exact valid
  · exact cons_ne_nil _ _
  · simp

theorem deleteLeft : Valid e.deleteLeft := by
  rw [Editor.deleteLeft]
  split_ifs with some_
  · have inside := valid.cursor_le
    have before : ((slice e.line 0 (e.cursor - 1)).length : Int) = e.cursor - 1 := by
      rw [length_slice (Int.le_refl _) (by omega) (by omega), Int.sub_zero]
    refine valid.edit (by omega) ?_
    rw [length_append]
    omega
  · exact valid

theorem deleteRight : Valid e.deleteRight := by
  have before := valid.length_before
  refine valid.edit valid.cursor_nonneg ?_
  rw [length_append]
  omega

theorem deleteLineLeft : Valid e.deleteLineLeft := valid.edit (Int.le_refl _) (Int.natCast_nonneg _)

theorem deleteLineRight : Valid e.deleteLineRight :=
  valid.edit valid.cursor_nonneg (Int.le_of_eq valid.length_before.symm)

theorem clearLine : Valid e.clearLine :=
  (valid.moveCursor .plusInfinity).edit (Int.le_refl _) (Int.natCast_nonneg _)

theorem prompt (preserveCursor : Bool) : Valid (e.prompt preserveCursor) := by
  rw [Editor.prompt]
  split_ifs
  · exact valid
  · exact valid.edit (Int.le_refl _) (Int.natCast_nonneg _)

/-! ### Words -/

theorem wordLeft : ∃ e', e.wordLeft = some e' ∧ Valid e' := by
  rw [Editor.wordLeft]
  split_ifs
  · obtain ⟨word, found⟩ := wordBefore_matches (slice e.line 0 e.cursor)
    rw [found]
    exact ⟨_, rfl, valid.moveCursor _⟩
  · exact ⟨e, rfl, valid⟩

theorem deleteWordLeft : ∃ e', e.deleteWordLeft = some e' ∧ Valid e' := by
  rw [Editor.deleteWordLeft]
  split_ifs
  · obtain ⟨word, found⟩ := wordBefore_matches (slice e.line 0 e.cursor)
    rw [found]
    refine ⟨_, rfl, valid.edit (Int.natCast_nonneg _) ?_⟩
    rw [length_append]
    omega
  · exact ⟨e, rfl, valid⟩

theorem behind_ne_nil (inside : e.cursor < e.line.length) : sliceFrom e.line e.cursor ≠ [] := by
  intro none_
  have behind := length_sliceFrom valid.cursor_nonneg valid.cursor_le
  rw [none_, length_nil] at behind
  omega

theorem wordRight : ∃ e', e.wordRight = some e' ∧ Valid e' := by
  rw [Editor.wordRight]
  split_ifs with inside
  · obtain ⟨word, found⟩ := wordBehind_matches (valid.behind_ne_nil inside)
    rw [found]
    exact ⟨_, rfl, valid.moveCursor _⟩
  · exact ⟨e, rfl, valid⟩

theorem deleteWordRight : ∃ e', e.deleteWordRight = some e' ∧ Valid e' := by
  rw [Editor.deleteWordRight]
  split_ifs with inside
  · obtain ⟨word, found⟩ := wordBehind_matches (valid.behind_ne_nil inside)
    have before := valid.length_before
    rw [found]
    refine ⟨_, rfl, valid.edit valid.cursor_nonneg ?_⟩
    rw [length_append]
    omega
  · exact ⟨e, rfl, valid⟩

/-! ### The history -/

theorem entry {i : Int} (nonneg : 0 ≤ i) (inside : i < e.history.length) :
    ∃ line, e.entry i = some line ∧
      Valid { e with historyIndex := i, line, cursor := line.length } := by
  have lt : i.toNat < e.history.length := by omega
  refine ⟨e.history[i.toNat], ?_, { valid with
    cursor_nonneg := Int.natCast_nonneg _
    cursor_le := Int.le_refl _
    index_ge := Int.le_trans (by decide) nonneg
    index_lt := inside }⟩
  rw [Editor.entry, if_neg (by omega), List.getElem?_eq_getElem lt]

theorem historyNext : ∃ e', e.historyNext = some e' ∧ Valid e' := by
  have inside := valid.index_lt
  rw [Editor.historyNext]
  split_ifs with above first
  · obtain ⟨line, found, valid'⟩ := valid.entry (i := e.historyIndex - 1) (by omega) (by omega)
    rw [found]
    exact ⟨_, rfl, valid'⟩
  · exact ⟨_, rfl, { valid with
      cursor_nonneg := Int.le_refl _
      cursor_le := Int.le_refl _
      index_ge := Int.le_refl _
      index_lt := by dsimp only; omega }⟩
  · exact ⟨e, rfl, valid⟩

theorem historyPrev : ∃ e', e.historyPrev = some e' ∧ Valid e' := by
  have low := valid.index_ge
  rw [Editor.historyPrev]
  split_ifs with inside
  · obtain ⟨line, found, valid'⟩ := valid.entry (i := e.historyIndex + 1) (by omega) inside
    rw [found]
    exact ⟨_, rfl, valid'⟩
  · exact ⟨e, rfl, valid⟩

theorem unshift (some_ : e.line ≠ []) (other : e.history.head? ≠ some e.line) :
    e.unshift.length ≤ kHistorySize ∧ (∀ entry ∈ e.unshift, entry ≠ []) ∧
      e.unshift.IsChain (· ≠ ·) ∧ e.unshift ≠ [] := by
  have filled : ∀ entry ∈ e.line :: e.history, entry ≠ [] :=
    forall_mem_cons.mpr ⟨some_, valid.filled⟩
  have distinct : (e.line :: e.history).IsChain (· ≠ ·) := by
    refine isChain_cons.mpr ⟨?_, valid.distinct⟩
    rintro entry first rfl
    exact other first
  have few := valid.few
  rw [Editor.unshift]
  split_ifs with full
  · refine ⟨?_, fun entry mem => filled entry (mem_of_mem_dropLast mem),
      distinct.prefix (List.dropLast_prefix _), ?_⟩
    · rw [length_dropLast, length_cons]
      omega
    intro none_
    have length := congrArg List.length none_
    rw [length_dropLast, length_nil] at length
    have : kHistorySize = 30 := rfl
    omega
  · exact ⟨Nat.le_of_not_lt full, filled, distinct, cons_ne_nil _ _⟩

theorem addHistory : Valid e.addHistory.2 := by
  rw [Editor.addHistory]
  split_ifs with none_ new
  · exact valid
  · have some_ : e.line ≠ [] := fun empty => none_ (congrArg List.length empty)
    have other : e.history.head? ≠ some e.line := by
      rcases new with none_ | other
      · rw [length_eq_zero_iff.mp none_]
        intro same
        cases same
      · exact other
    obtain ⟨few, filled, distinct, first⟩ := valid.unshift some_ other
    exact { valid with
      index_ge := Int.le_refl _
      index_lt := by
        dsimp only
        omega
      few, filled, distinct }
  exact { valid with
    index_ge := Int.le_refl _
    index_lt := by
      dsimp only
      omega }

theorem deliver : Valid e.deliver := { valid.addHistory.clearLine with }

/-! ### Keys -/

theorem paste (lines : List JSString) : Valid (e.paste lines) := by
  cases lines with
  | nil => exact valid
  | cons line =>
    rw [Editor.paste]
    split_ifs
    · exact valid.insertString line
    · exact { (valid.insertString line).deliver with }

theorem controlShift (name : KeyName) : Valid (e.controlShift name) := by
  rw [Editor.controlShift.eq_def]
  split
  · exact valid.deleteLineLeft
  · exact valid.deleteLineRight
  · exact valid

theorem control (name : KeyName) : ∃ e', e.control name = some e' ∧ Valid e' := by
  rw [Editor.control.eq_def]
  split
  · exact ⟨_, rfl, valid.deleteLeft⟩
  · split_ifs
    · exact ⟨_, rfl, valid⟩
    · exact ⟨_, rfl, valid.deleteRight⟩
    · exact ⟨_, rfl, valid⟩
  · exact ⟨_, rfl, valid.edit (Int.le_refl _) (Int.natCast_nonneg _)⟩
  · exact ⟨_, rfl, valid.deleteLineRight⟩
  · exact ⟨_, rfl, valid.moveCursor _⟩
  · exact ⟨_, rfl, valid.moveCursor _⟩
  · exact ⟨_, rfl, valid.moveCursor _⟩
  · exact ⟨_, rfl, valid.moveCursor _⟩
  · exact valid.historyNext
  · exact valid.historyPrev
  · exact valid.deleteWordLeft
  · exact valid.deleteWordLeft
  · exact valid.deleteWordRight
  · exact valid.wordLeft
  · exact valid.wordRight
  · exact ⟨_, rfl, valid⟩

theorem metaKey (name : KeyName) : ∃ e', e.metaKey name = some e' ∧ Valid e' := by
  rw [Editor.metaKey.eq_def]
  split
  · exact valid.wordLeft
  · exact valid.wordRight
  · exact valid.deleteWordRight
  · exact valid.deleteWordRight
  · exact valid.deleteWordLeft
  · exact ⟨_, rfl, valid⟩

theorem plainKey (s : JSString) (name : KeyName) :
    ∃ e', e.plainKey s name = some e' ∧ Valid e' := by
  rw [Editor.plainKey.eq_def]
  split
  · have saw : Valid { e with sawReturn := true } := { valid with }
    exact ⟨_, rfl, saw.deliver⟩
  · refine ⟨_, rfl, ?_⟩
    split_ifs
    · exact { valid with }
    · exact valid.deliver
  · exact ⟨_, rfl, valid.deleteLeft⟩
  · exact ⟨_, rfl, valid.deleteRight⟩
  · exact ⟨_, rfl, { valid with }⟩
  · exact ⟨_, rfl, valid.moveCursor _⟩
  · exact ⟨_, rfl, valid.moveCursor _⟩
  · exact ⟨_, rfl, valid.moveCursor _⟩
  · exact ⟨_, rfl, valid.moveCursor _⟩
  · exact valid.historyPrev
  · exact valid.historyNext
  refine ⟨_, rfl, ?_⟩
  split_ifs
  · exact valid.paste _
  · exact valid

theorem ttyWrite (s : JSString) (key : Key) : ∃ e', e.ttyWrite s key = some e' ∧ Valid e' := by
  rw [Editor.ttyWrite]
  split_ifs
  · exact ⟨e, rfl, valid⟩
  · exact ⟨_, rfl, valid.controlShift _⟩
  · exact valid.control _
  · exact valid.metaKey _
  · have reset : Valid { e with sawReturn := false } := { valid with }
    exact reset.plainKey s key.name
  · exact valid.plainKey s key.name

/-- **No action throws**, and each leaves a valid editor. -/
theorem step (action : Action) : ∃ e', e.step action = some e' ∧ Valid e' := by
  cases action with
  | ttyWrite s key => exact valid.ttyWrite s key
  | prompt preserveCursor => exact ⟨_, rfl, valid.prompt preserveCursor⟩
  | clearLine => exact ⟨_, rfl, valid.clearLine⟩
  | completed result => exact ⟨_, rfl, valid.completed result⟩
  | returns =>
    rw [Editor.step]
    cases e.pasting with
    | nil => exact ⟨e, rfl, valid⟩
    | cons lines pasting =>
      have left : Valid { e with pasting } := { valid with }
      exact ⟨_, rfl, left.paste lines⟩
  | throws => exact ⟨_, rfl, { valid with }⟩

end

end Valid

/-- **Whatever is typed, written and answered**, no operation throws and the editor stays valid. -/
theorem valid_of_actions (actions : List Action) :
    ∃ e, actions.foldlM step new = some e ∧ Valid e := by
  have later : ∀ e, Valid e → ∃ e', actions.foldlM step e = some e' ∧ Valid e' := by
    induction actions with
    | nil => exact fun e valid => ⟨e, rfl, valid⟩
    | cons action actions ih =>
      intro e valid
      obtain ⟨e', stepped, valid'⟩ := valid.step action
      obtain ⟨e'', done, valid''⟩ := ih e' valid'
      exact ⟨e'', by rw [foldlM_cons, stepped]; exact done, valid''⟩
  exact later new valid_new

/-- Two lines are pasted; of the second, the last word is deleted. -/
example : ([.ttyWrite [0x61, 0x0D, 0x62, 0x20, 0x63] {}, .returns,
        .ttyWrite [] { name := .letter 'w', ctrl := true }].foldlM step new).map
      (fun e => (e.line, e.cursor, e.history)) = some ([0x62, 0x20], 2, [[0x61]]) := by
  decide

end Editor

end IoJs.Readline
