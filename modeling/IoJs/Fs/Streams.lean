import IoJs.Stream.Writable.Callbacks
import Mathlib.Algebra.GroupWithZero.Nat
import Mathlib.Data.List.Basic

/-!
# Writing and reading files in pieces

A call of `write` may write less than it is asked to, and a call of `read` may read less.
`writeAll` and the loop of `writeFileSync` go on behind what has been written, so both leave the
same file (`writeFile_writeFileSync`). A `WriteStream` takes every chunk for written, and a
`ReadStream` with a start takes every range for read: they are right where no call falls short
(`writeStream_iff`, `readStream_iff`). The chunks are those of its `Writable`
(`WriteStream.content_of_run`).
-/

namespace IoJs.Fs

open List Option

/-! ## Files -/

/-- `pwrite`, and `write` at the end of a file that is open for appending (null) -/
def writeAt (content : List UInt8) (position : Option Nat) (bytes : List UInt8) : List UInt8 :=
  match position with
  | none => content ++ bytes
  | some p =>
    if bytes = [] then content
    else
      content.take p ++ List.replicate (p - content.length) 0 ++ bytes ++
        content.drop (p + bytes.length)

theorem writeAt_append (front tail bytes : List UInt8) :
    writeAt (front ++ tail) (some front.length) bytes =
      front ++ bytes ++ tail.drop bytes.length := by
  by_cases empty : bytes = [] <;> simp [writeAt, empty]

theorem writeAt_end (content bytes : List UInt8) :
    writeAt content (some content.length) bytes = content ++ bytes := by
  simpa using writeAt_append content [] bytes

theorem writeAt_writeAt (content first second : List UInt8) (p : Nat) :
    writeAt (writeAt content (some p) first) (some (p + first.length)) second =
      writeAt content (some p) (first ++ second) := by
  by_cases empty : first = []
  · simp [writeAt, empty]
  have long : (content.take p ++ List.replicate (p - content.length) 0 ++ first).length =
      p + first.length := by
    simp
    omega
  have inner : writeAt content (some p) first =
      content.take p ++ List.replicate (p - content.length) 0 ++ first ++
        content.drop (p + first.length) := if_neg empty
  rw [inner, ← long, writeAt_append, drop_drop, long]
  simp [writeAt, empty, Nat.add_assoc]

/-! ## `writeFile` and `writeFileSync` -/

/-- What the calls of `write` report, by their number and the requested length; none is an error. -/
structure Kernel where
  written : Nat → Nat → Option Nat
  fits : ∀ {i length n}, written i length = some n → n ≤ length
  filled : ∀ {i length n}, written i length = some n → 0 < length → 0 < n

/-- A call that is made for a file descriptor -/
inductive WriteCall where
  | write (offset length : Nat) (position : Option Nat) (written : Option Nat)
  | close
  deriving DecidableEq

/-- The calls that have been made, what is in the file, and whether an error is reported -/
structure WriteOutcome where
  calls : List WriteCall
  content : List UInt8
  error : Bool
  deriving DecidableEq

/-- A call before the others -/
def WriteOutcome.after (call : WriteCall) (o : WriteOutcome) : WriteOutcome :=
  { o with calls := call :: o.calls }

variable (kernel : Kernel) (buffer : List UInt8)

/-- `writeAll`, for so many calls -/
def writeAll : Nat → Nat → Nat → Nat → Option Nat → List UInt8 → Option WriteOutcome
  | 0, _, _, _, _, _ => none
  | fuel + 1, i, offset, length, position, content =>
    let written := kernel.written i length
    Option.map (WriteOutcome.after (.write offset length position written)) <| match written with
      | none => some ⟨[.close], content, true⟩
      | some written =>
        let content := writeAt content position ((buffer.drop offset).take written)
        if written = length then some ⟨[.close], content, false⟩
        else
          writeAll fuel (i + 1) (offset + written) (length - written) (position.map (· + written))
            content

/-- The loop of `writeFileSync`, with `finally` behind it -/
def writeSyncLoop : Nat → Nat → Nat → Nat → Option Nat → List UInt8 → Option WriteOutcome
  | 0, _, _, _, _, _ => none
  | fuel + 1, i, offset, length, position, content =>
    if 0 < length then
      let written := kernel.written i length
      Option.map (WriteOutcome.after (.write offset length position written)) <| match written with
        | none => some ⟨[.close], content, true⟩
        | some written =>
          writeSyncLoop fuel (i + 1) (offset + written) (length - written)
            (position.map (· + written))
            (writeAt content position ((buffer.drop offset).take written))
    else some ⟨[.close], content, false⟩

/-- `/a/.test(flag) ? null : 0` -/
def positionOf (append : Bool) : Option Nat := if append then none else some 0

/-- What is in a file that has been opened -/
def opened (append : Bool) (content : List UInt8) : List UInt8 := if append then content else []

/-- `fs.writeFile`, where the file has been opened -/
def writeFile (append : Bool) (content : List UInt8) : Option WriteOutcome :=
  writeAll kernel buffer (buffer.length + 1) 0 0 buffer.length (positionOf append)
    (opened append content)

/-- `fs.writeFileSync`, where the file has been opened -/
def writeFileSync (append : Bool) (content : List UInt8) : Option WriteOutcome :=
  writeSyncLoop kernel buffer (buffer.length + 1) 0 0 buffer.length (positionOf append)
    (opened append content)

/-- The calls for a buffer of which so many bytes are written at a time, each behind the last ones
-/
def writes (size : Nat) (position : Option Nat) : Nat → List Nat → List WriteCall
  | _, [] => []
  | offset, n :: counts =>
    .write offset (size - offset) (position.map (· + offset)) (some n) ::
      writes size position (offset + n) counts

/-- The counts are what the calls from number `i` on report, each asked for what is left. -/
def Reported : Nat → Nat → List Nat → Prop
  | _, _, [] => True
  | i, length, n :: counts =>
    kernel.written i length = some n ∧ Reported (i + 1) (length - n) counts

/-- From call number `i` on, the bytes behind `from_` are written in order and once, as much at a
time as the calls report, up to the first call that fails or the end; the descriptor is closed once,
at last. -/
structure WriteOutcome.Faithful (position : Option Nat) (base : List UInt8) (i from_ : Nat)
    (o : WriteOutcome) (counts : List Nat) : Prop where
  calls : o.calls = writes buffer.length position from_ counts ++ (if o.error then
      [.write (from_ + counts.sum) (buffer.length - (from_ + counts.sum))
        (position.map (· + (from_ + counts.sum))) none]
    else []) ++ [.close]
  reported : Reported kernel i (buffer.length - from_) counts
  content : o.content = base ++ buffer.take (from_ + counts.sum)
  whole : o.error = false → from_ + counts.sum = buffer.length
  failed : o.error = true →
    kernel.written (i + counts.length) (buffer.length - (from_ + counts.sum)) = none

variable {kernel buffer}

/-- A call that reports `n` bytes, before a run that goes on behind them -/
theorem WriteOutcome.Faithful.after {position : Option Nat} {base : List UInt8} {i offset n : Nat}
    {counts : List Nat} {o : WriteOutcome}
    (written : kernel.written i (buffer.length - offset) = some n)
    (faithful : o.Faithful kernel buffer position base (i + 1) (offset + n) counts) :
    (o.after (.write offset (buffer.length - offset) (position.map (· + offset)) (some n))).Faithful
      kernel buffer position base i offset (n :: counts) := by
  obtain ⟨calls, reported, content, whole, failed⟩ := faithful
  have sum : offset + (n :: counts).sum = offset + n + counts.sum := by rw [sum_cons, Nat.add_assoc]
  have number : i + (n :: counts).length = i + 1 + counts.length := by
    rw [length_cons, Nat.add_assoc, Nat.add_comm 1]
  refine ⟨?_, ⟨written, Nat.sub_sub _ _ _ ▸ reported⟩, sum ▸ content, sum ▸ whole, ?_⟩
  · rw [sum]
    exact congrArg (List.cons _) calls
  · rw [sum, number]
    exact failed

/-- A call that fails -/
theorem faithful_of_failed (position : Option Nat) (base : List UInt8) {i offset : Nat}
    (written : kernel.written i (buffer.length - offset) = none) :
    ((⟨[.close], base ++ buffer.take offset, true⟩ : WriteOutcome).after
      (.write offset (buffer.length - offset) (position.map (· + offset)) none)).Faithful
        kernel buffer position base i offset [] :=
  ⟨rfl, trivial, rfl, fun whole => Bool.noConfusion whole, fun _ => written⟩

/-- The end of the loop, and of the recursion -/
theorem faithful_of_whole (position : Option Nat) (base : List UInt8) (i : Nat) {offset : Nat}
    (whole : offset = buffer.length) :
    (⟨[.close], base ++ buffer.take offset, false⟩ : WriteOutcome).Faithful kernel buffer position
      base i offset [] :=
  ⟨rfl, trivial, rfl, fun _ => whole, fun failed => Bool.noConfusion failed⟩

/-- Where a file stands from which the position goes on -/
def Stands (position : Option Nat) (base : List UInt8) : Prop :=
  ∀ p, position = some p → p = base.length

theorem Stands.write {position : Option Nat} {base : List UInt8} (stands : Stands position base)
    {offset n : Nat} (le : offset + n ≤ buffer.length) :
    writeAt (base ++ buffer.take offset) (position.map (· + offset))
      ((buffer.drop offset).take n) = base ++ buffer.take (offset + n) := by
  have next : buffer.take offset ++ (buffer.drop offset).take n = buffer.take (offset + n) :=
    take_add.symm
  cases position with
  | none => rw [map_none, writeAt, append_assoc, next]
  | some p =>
    have here : p + offset = (base ++ buffer.take offset).length := by
      rw [length_append, length_take, ← stands p rfl]
      omega
    rw [map_some, here, writeAt_end, append_assoc, next]

theorem map_add (position : Option Nat) (a b : Nat) :
    (position.map (· + a)).map (· + b) = position.map (· + (a + b)) := by
  cases position with
  | none => rfl
  | some p => simp [Nat.add_assoc]

/-- From any place in the buffer on, both loops end, both are faithful to what the calls report, and
they make the same calls unless there is nothing to write. -/
theorem exists_faithful {position : Option Nat} {base : List UInt8} (stands : Stands position base)
    (fuel i offset : Nat) (le : offset ≤ buffer.length) (enough : buffer.length - offset < fuel) :
    ∃ all sync counts counts',
      writeAll kernel buffer fuel i offset (buffer.length - offset) (position.map (· + offset))
        (base ++ buffer.take offset) = some all ∧
      writeSyncLoop kernel buffer fuel i offset (buffer.length - offset)
        (position.map (· + offset)) (base ++ buffer.take offset) = some sync ∧
      all.Faithful kernel buffer position base i offset counts ∧
      sync.Faithful kernel buffer position base i offset counts' ∧
      all.content = sync.content ∧ (offset < buffer.length → all = sync) := by
  induction fuel generalizing i offset with
  | zero => omega
  | succ fuel ih =>
    rw [writeAll, writeSyncLoop]
    cases written : kernel.written i (buffer.length - offset) with
    | none =>
      have failed := faithful_of_failed position base written
      by_cases more : offset < buffer.length
      · rw [if_pos (by omega)]
        exact ⟨_, _, [], [], rfl, rfl, failed, failed, rfl, fun _ => rfl⟩
      rw [if_neg (by omega)]
      exact ⟨_, _, [], [], rfl, rfl, failed, faithful_of_whole position base i (by omega), rfl,
        fun less => absurd less more⟩
    | some n =>
      have fits := kernel.fits written
      have some_ := kernel.filled written
      have left : buffer.length - offset - n = buffer.length - (offset + n) := by omega
      simp only [stands.write (show offset + n ≤ buffer.length by omega), left, map_add]
      by_cases more : offset < buffer.length
      · rw [if_pos (show 0 < buffer.length - offset by omega)]
        obtain ⟨all, sync, counts, counts', runs, runs', faithful, faithful', content, same⟩ :=
          ih (i + 1) (offset + n) (by omega) (by omega)
        by_cases last : n = buffer.length - offset
        · have whole : offset + n = buffer.length := by omega
          have ends : sync = ⟨[.close], base ++ buffer.take (offset + n), false⟩ := by
            cases fuel with
            | zero => omega
            | succ fuel =>
              rw [writeSyncLoop, if_neg (by omega)] at runs'
              exact (some.inj runs').symm
          have done := (faithful_of_whole position base (i + 1) whole).after written
          rw [if_pos last, runs', ends]
          exact ⟨_, _, [n], [n], rfl, rfl, done, done, rfl, fun _ => rfl⟩
        rw [if_neg last, runs, runs']
        refine ⟨_, _, n :: counts, n :: counts', rfl, rfl, faithful.after written,
          faithful'.after written, content, fun _ => ?_⟩
        rw [same (by omega)]
      have whole : offset + n = buffer.length := by omega
      have zero : n = 0 := by omega
      rw [if_pos (show n = buffer.length - offset by omega),
        if_neg (show ¬0 < buffer.length - offset by omega)]
      refine ⟨_, _, [n], [], rfl, rfl,
        (faithful_of_whole position base (i + 1) whole).after written,
        faithful_of_whole position base i (by omega), ?_, fun less => absurd less more⟩
      rw [zero]
      rfl

/-- **`writeFile` and `writeFileSync` survive partial writes**: both write what the calls report
piece by piece, and report an error exactly where a call has failed. They differ only in that
`writeFile` writes an empty buffer too. -/
theorem writeFile_writeFileSync (kernel : Kernel) (buffer : List UInt8) (append : Bool)
    (content : List UInt8) :
    ∃ all sync counts counts', writeFile kernel buffer append content = some all ∧
      writeFileSync kernel buffer append content = some sync ∧
      all.Faithful kernel buffer (positionOf append) (opened append content) 0 0 counts ∧
      sync.Faithful kernel buffer (positionOf append) (opened append content) 0 0 counts' ∧
      all.content = sync.content ∧ (buffer ≠ [] → all = sync) := by
  have stands : Stands (positionOf append) (opened append content) := by
    intro p at_
    cases append with
    | true => cases at_
    | false => exact (some.inj at_).symm
  have runs := @exists_faithful kernel buffer _ _ stands (buffer.length + 1) 0 0 (Nat.zero_le _)
    (by omega)
  have start : (positionOf append).map (· + 0) = positionOf append := by cases append <;> rfl
  rw [start, take_zero, append_nil, Nat.sub_zero] at runs
  obtain ⟨all, sync, counts, counts', runs⟩ := runs
  refine ⟨all, sync, counts, counts', runs.1, runs.2.1, runs.2.2.1, runs.2.2.2.1,
    runs.2.2.2.2.1, ?_⟩
  exact fun some_ => runs.2.2.2.2.2 (length_pos_iff.mpr some_)

/-- A kernel that writes two bytes at a time, on a disk on which so many calls find room -/
def pairwise (room : Nat) : Kernel where
  written i length := if i < room then some (min 2 length) else none
  fits {i length n} reports := by
    split at reports
    · exact some.inj reports ▸ Nat.min_le_right 2 length
    · cases reports
  filled {i length n} reports some_ := by
    split at reports
    · rw [← some.inj reports]
      omega
    · cases reports

/-- Five bytes over an older file: in three writes, and on a disk that is full after two -/
theorem writeFile_writeFileSync_pairwise :
    writeFile (pairwise 3) [1, 2, 3, 4, 5] false [9, 9] = some ⟨[.write 0 5 (some 0) (some 2),
        .write 2 3 (some 2) (some 2), .write 4 1 (some 4) (some 1), .close],
          [1, 2, 3, 4, 5], false⟩ ∧
      writeFile (pairwise 2) [1, 2, 3, 4, 5] false [9, 9] = some ⟨[.write 0 5 (some 0) (some 2),
        .write 2 3 (some 2) (some 2), .write 4 1 (some 4) none, .close], [1, 2, 3, 4], true⟩ ∧
      writeFileSync (pairwise 2) [1, 2, 3, 4, 5] false [9, 9] =
        writeFile (pairwise 2) [1, 2, 3, 4, 5] false [9, 9] := by
  obtain ⟨all, sync, -, -, runs, runs', -, -, -, same⟩ :=
    writeFile_writeFileSync (pairwise 2) [1, 2, 3, 4, 5] false [9, 9]
  refine ⟨rfl, rfl, ?_⟩
  rw [runs, runs', same (cons_ne_nil _ _)]

/-! ## `WriteStream` -/

/-- A chunk, and what `write` reports of it; none is an error. -/
structure Write where
  data : List UInt8
  written : Option Nat

/-- A `WriteStream` without its `Writable`, with what is in its file, and the position of the
descriptor -/
structure WriteStream where
  pos : Option Nat
  bytesWritten : Nat
  content : List UInt8
  current : Nat
  error : Bool

/-- `_write`, and the callback of `write`; the stream goes on when that is called without an error.
-/
def WriteStream.write (s : WriteStream) (w : Write) : WriteStream :=
  if s.error then s
  else
    match w.written with
    | none => { s with pos := s.pos.map (· + w.data.length), error := true }
    | some bytes =>
      { s with
        pos := s.pos.map (· + w.data.length)
        bytesWritten := s.bytesWritten + bytes
        content := writeAt s.content (some (s.pos.getD s.current)) (w.data.take bytes)
        current := if s.pos.isNone then s.current + bytes else s.current }

/-- A `WriteStream` with its `start` -/
def WriteStream.open_ (start : Option Nat) (content : List UInt8) (current : Nat) : WriteStream :=
  ⟨start, 0, content, current, false⟩

variable {s : WriteStream} {list : List Write}

theorem WriteStream.error_foldl (error : s.error = true) :
    (list.foldl WriteStream.write s).error = true := by
  induction list generalizing s with
  | nil => exact error
  | cons w list ih => exact ih (by rw [WriteStream.write, if_pos error]; exact error)

theorem WriteStream.error_iff (ok : s.error = false) :
    (list.foldl WriteStream.write s).error = true ↔ ∃ w ∈ list, w.written = none := by
  induction list generalizing s with
  | nil => simp [ok]
  | cons w list ih =>
    cases written : w.written with
    | none => simp [error_foldl, WriteStream.write, ok, written]
    | some => simp [ih, WriteStream.write, ok, written]

theorem WriteStream.bytesWritten_foldl (ok : s.error = false)
    (none_ : ¬∃ w ∈ list, w.written = none) :
    (list.foldl WriteStream.write s).bytesWritten =
      s.bytesWritten + (list.map fun w => w.written.getD 0).sum := by
  induction list generalizing s with
  | nil => rfl
  | cons w list ih =>
    rw [exists_mem_cons_iff, not_or] at none_
    obtain ⟨bytes, written⟩ := ne_none_iff_exists'.mp none_.1
    rw [foldl_cons, ih (by simp [WriteStream.write, ok, written]) none_.2]
    simp [WriteStream.write, ok, written, Nat.add_assoc]

theorem WriteStream.content_foldl (ok : s.error = false)
    (whole : ∀ w ∈ list, w.written = some w.data.length) :
    (list.foldl WriteStream.write s).content =
      writeAt s.content (some (s.pos.getD s.current)) (list.flatMap Write.data) := by
  induction list generalizing s with
  | nil => simp [writeAt]
  | cons w list ih =>
    obtain ⟨here, whole⟩ := forall_mem_cons.mp whole
    rw [foldl_cons, ih (by simp [WriteStream.write, ok, here]) whole, flatMap_cons,
      ← writeAt_writeAt]
    cases pos : s.pos <;> simp [WriteStream.write, ok, here, pos]

theorem eq_of_sum_eq (fits : ∀ w ∈ list, ∀ n, w.written = some n → n ≤ w.data.length)
    (same : (list.map fun w => w.written.getD 0).sum = (list.flatMap Write.data).length)
    (none_ : ¬∃ w ∈ list, w.written = none) : ∀ w ∈ list, w.written = some w.data.length := by
  have le : ∀ l : List Write, (∀ w ∈ l, ∀ n, w.written = some n → n ≤ w.data.length) →
      (l.map fun w => w.written.getD 0).sum ≤ (l.flatMap Write.data).length := by
    intro l fits
    induction l with
    | nil => exact Nat.zero_le _
    | cons w l ih =>
      obtain ⟨here, fits⟩ := forall_mem_cons.mp fits
      have rest := ih fits
      rw [map_cons, sum_cons, flatMap_cons, length_append]
      cases written : w.written with
      | none => exact Nat.add_le_add (Nat.zero_le _) rest
      | some n => exact Nat.add_le_add (here n written) rest
  induction list with
  | nil => simp
  | cons w list ih =>
    rw [exists_mem_cons_iff, not_or] at none_
    obtain ⟨here, fits⟩ := forall_mem_cons.mp fits
    obtain ⟨bytes, written⟩ := ne_none_iff_exists'.mp none_.1
    have bound := here bytes written
    have rest := le list fits
    simp only [map_cons, sum_cons, flatMap_cons, length_append, written, getD_some] at same
    refine forall_mem_cons.mpr ⟨?_, ih fits (by omega) none_.2⟩
    rw [written, show bytes = w.data.length by omega]

/-- **When a `WriteStream` writes every byte**, unless it reports an error: each call of `write` has
to write the whole chunk. -/
theorem writeStream_iff (start : Option Nat) (content : List UInt8) (current : Nat)
    (list : List Write) (fits : ∀ w ∈ list, ∀ n, w.written = some n → n ≤ w.data.length) :
    ((list.foldl WriteStream.write (.open_ start content current)).error = false →
      (list.foldl WriteStream.write (.open_ start content current)).content =
          writeAt content (some (start.getD current)) (list.flatMap Write.data) ∧
        (list.foldl WriteStream.write (.open_ start content current)).bytesWritten =
          (list.flatMap Write.data).length) ↔
      (∃ w ∈ list, w.written = none) ∨ ∀ w ∈ list, w.written = some w.data.length := by
  have iff := @WriteStream.error_iff (.open_ start content current) list rfl
  by_cases failed : ∃ w ∈ list, w.written = none
  · rw [iff.mpr failed]
    exact ⟨fun _ => .inl failed, fun _ ok => Bool.noConfusion ok⟩
  have ok := Bool.eq_false_iff.mpr (mt iff.mp failed)
  have count := WriteStream.bytesWritten_foldl (s := .open_ start content current) rfl failed
  rw [show (WriteStream.open_ start content current).bytesWritten = 0 from rfl,
    Nat.zero_add] at count
  constructor
  · intro holds
    exact .inr (eq_of_sum_eq fits (count.symm.trans (holds ok).2) failed)
  intro whole _
  have whole := whole.resolve_left failed
  refine ⟨WriteStream.content_foldl rfl whole, ?_⟩
  rw [count, length_flatMap]
  exact congrArg List.sum (map_congr_left fun w mem => by rw [whole w mem]; rfl)

/-- Two chunks, written as a whole -/
theorem writeStream_whole :
    (([⟨[1, 2], some 2⟩, ⟨[3], some 1⟩] : List Write).foldl WriteStream.write
      (.open_ (some 1) [9] 0)).content = [9, 1, 2, 3] :=
  (((writeStream_iff (some 1) [9] 0 [⟨[1, 2], some 2⟩, ⟨[3], some 1⟩]
    (by simp)).mpr (.inr (by simp))) (by decide)).1

/-- A chunk of which only a part is written is taken for written. -/
theorem not_writeStream :
    ¬∀ (start : Option Nat) (content : List UInt8) (current : Nat) (list : List Write),
      (∀ w ∈ list, ∀ n, w.written = some n → n ≤ w.data.length ∧ (w.data ≠ [] → 0 < n)) →
      (list.foldl WriteStream.write (.open_ start content current)).error = false →
        (list.foldl WriteStream.write (.open_ start content current)).content =
            writeAt content (some (start.getD current)) (list.flatMap Write.data) ∧
          (list.foldl WriteStream.write (.open_ start content current)).bytesWritten =
            (list.flatMap Write.data).length := by
  intro all
  have here := all none [] 0 [⟨[1, 2, 3], some 2⟩] (by simp) (by decide)
  exact absurd here.2 (by decide)

section

open IoJs.Stream IoJs.Stream.Writable

/-- **A `WriteStream` writes what its `Writable` accepts**, in a calm run, once all is handed over
and completed: if each call writes all that it is handed. -/
theorem WriteStream.content_of_run {Obj : Type} {env : Environment} {options : Options}
    {c : Config Obj} (run : Library.Run (step env) Calm (.new options) c)
    (turn : c.userTurn = true) (completed : c.outstanding = []) (notDeferred : c.deferred = false)
    (uncorked : c.state.corked = 0) {chunks : List (List UInt8)}
    (buffers : (accepted c.trace).map Request.chunk = chunks.map .buffer) {list : List Write}
    (taken : (handed c.trace).map Request.chunk = (list.map Write.data).map .buffer)
    (whole : ∀ w ∈ list, w.written = some w.data.length) (start : Option Nat)
    (content : List UInt8) (current : Nat) :
    (list.foldl WriteStream.write (.open_ start content current)).content =
      writeAt content (some (start.getD current)) chunks.flatten := by
  have inv : CalmInv c := run.invariant CalmInv (.new options) fun inv calm stepped =>
    inv.step calm stepped
  have same : list.map Write.data = chunks := by
    rw [inv.handed_eq_accepted turn completed notDeferred uncorked, buffers] at taken
    exact (map_injective_iff.mpr (fun _ _ => Chunk.buffer.inj) taken).symm
  rw [content_foldl rfl whole, flatMap_def, same]
  rfl

end

/-! ## `ReadStream` -/

def kMinPoolSpace : Nat := 128

/-- A call of `_read`: the `highWaterMark`, what is left of the pool that the streams share, and how
many bytes `read` delivers -/
structure Read where
  highWaterMark : Nat
  pool : Nat
  bytesRead : Nat

/-- `toRead`, by `end` (none is `Infinity`) and `pos` -/
def toRead (stop pos : Option Nat) (r : Read) : Nat :=
  let space := if r.pool < kMinPoolSpace then r.highWaterMark else r.pool
  let toRead := min space r.highWaterMark
  match pos, stop with
  | some pos, some stop => min (stop + 1 - pos) toRead
  | _, _ => toRead

/-- The calls of `_read`, by `pos` and the position of the descriptor, up to `push(null)`, and the
bytes of the chunks that they push -/
inductive Delivers (content : List UInt8) (stop : Option Nat) :
    Option Nat → Nat → List Read → List UInt8 → Prop where
  | enough {pos current r} (enough : toRead stop pos r = 0) :
    Delivers content stop pos current [r] []
  | ended {pos current r} (asked : 0 < toRead stop pos r) (nothing : r.bytesRead = 0)
      (ended : content.length ≤ pos.getD current) : Delivers content stop pos current [r] []
  | chunk {pos current r reads bytes} (some_ : 0 < r.bytesRead)
      (asked : r.bytesRead ≤ toRead stop pos r)
      (there : r.bytesRead ≤ content.length - pos.getD current)
      (rest : Delivers content stop (pos.map (· + toRead stop pos r))
        (if pos.isNone then current + r.bytesRead else current) reads bytes) :
      Delivers content stop pos current (r :: reads)
        ((content.drop (pos.getD current)).take r.bytesRead ++ bytes)

/-- The bytes up to `end` -/
def upTo (content : List UInt8) : Option Nat → List UInt8
  | none => content
  | some stop => content.take (stop + 1)

/-- The range that is asked for -/
def range (content : List UInt8) (start stop : Option Nat) : List UInt8 :=
  (upTo content stop).drop (start.getD 0)

/-- No call of `read` falls short before the end of the file. -/
def Complete (size : Nat) (stop : Option Nat) : Nat → List Read → Prop
  | _, [] => True
  | p, r :: reads =>
    (0 < toRead stop (some p) r → r.bytesRead = min (toRead stop (some p) r) (size - p)) ∧
      Complete size stop (p + toRead stop (some p) r) reads

/-- What is asked of the options and of `read` -/
def Served (size : Nat) (stop : Option Nat) (reads : List Read) : Option Nat → Prop
  | none => ∀ e, stop = some e → size ≤ e + 1
  | some p => Complete size stop p reads

variable {content bytes : List UInt8} {stop pos : Option Nat} {current : Nat} {reads : List Read}

theorem toRead_pos {r : Read} (wants : 0 < r.highWaterMark) (open_ : ∀ p e, pos = some p →
    stop = some e → p ≤ e) : 0 < toRead stop pos r := by
  have space : 0 < min (if r.pool < kMinPoolSpace then r.highWaterMark else r.pool)
      r.highWaterMark := by
    have : kMinPoolSpace = 128 := rfl
    split_ifs <;> omega
  match pos, stop, open_ with
  | some p, some e, open_ =>
    have := open_ p e rfl rfl
    simp only [toRead]
    omega
  | none, _, _ => exact space
  | some _, none, _ => exact space

theorem Delivers.bytes_eq (delivers : Delivers content stop none current reads bytes)
    (wants : ∀ r ∈ reads, 0 < r.highWaterMark) : bytes = content.drop current := by
  generalize none_ : (none : Option Nat) = pos at delivers
  induction delivers with
  | @enough pos current r enough =>
    subst none_
    have := @toRead_pos stop none _ (wants r mem_cons_self)
      nofun
    omega
  | ended asked nothing ended =>
    subst none_
    exact (drop_eq_nil_of_le ended).symm
  | @chunk pos current r reads bytes some_ asked there rest ih =>
    subst none_
    have behind := ih (fun r mem => wants r (mem_cons_of_mem _ mem)) rfl
    rw [isNone_none, if_pos rfl] at behind
    rw [behind, getD_none, ← drop_drop, take_append_drop]

theorem length_upTo (p : Nat) (r : Read) : (upTo content stop).length ≤ content.length ∧
    (toRead stop (some p) r ≤ (upTo content stop).length - p ∨
      (upTo content stop).length = content.length) := by
  cases stop with
  | none => exact ⟨Nat.le_refl _, .inr rfl⟩
  | some e =>
    simp only [upTo, length_take, toRead]
    omega

theorem take_drop_upTo {p n : Nat} (le : n ≤ (upTo content stop).length - p) :
    (content.drop p).take n = ((upTo content stop).drop p).take n := by
  cases stop with
  | none => rfl
  | some e =>
    rw [upTo, length_take] at le
    rw [upTo, drop_take, take_take, Nat.min_eq_left (by omega)]

/-- Nothing behind the range is read, and all of it exactly if the reads are complete. -/
theorem Delivers.iff_complete {p : Nat}
    (delivers : Delivers content stop (some p) current reads bytes)
    (wants : ∀ r ∈ reads, 0 < r.highWaterMark) :
    bytes.length ≤ (upTo content stop).length - p ∧
      (bytes = (upTo content stop).drop p ↔ Complete content.length stop p reads) := by
  generalize at_ : some p = pos at delivers
  induction delivers generalizing p with
  | @enough pos current r enough =>
    subst at_
    have past : (upTo content stop).length ≤ p := by
      by_contra less
      have := @toRead_pos stop (some p) _ (wants r mem_cons_self) (by
        rintro _ e ⟨⟩ rfl
        rw [upTo, length_take] at less
        omega)
      omega
    simp [Complete, drop_eq_nil_of_le past, enough]
  | @ended pos current r asked nothing ended =>
    subst at_
    obtain ⟨le, -⟩ := @length_upTo content stop p r
    have past : (upTo content stop).length ≤ p := by
      rw [getD_some] at ended
      omega
    rw [getD_some] at ended
    simp [Complete, drop_eq_nil_of_le past, nothing, Nat.sub_eq_zero_of_le ended]
  | @chunk pos current r reads bytes some_ asked there rest ih =>
    subst at_
    obtain ⟨le, bound⟩ := @length_upTo content stop p r
    rw [getD_some] at there
    have inside : r.bytesRead ≤ (upTo content stop).length - p := by omega
    obtain ⟨short, iff⟩ :=
      ih (p := p + toRead stop (some p) r) (fun r mem => wants r (mem_cons_of_mem _ mem)) rfl
    rw [getD_some, take_drop_upTo inside, Complete, ← iff, length_append,
      length_take, length_drop, Nat.min_eq_left inside]
    refine ⟨by omega, ?_⟩
    constructor
    · intro same
      have lengths := congrArg List.length same
      rw [length_append, length_take, length_drop, Nat.min_eq_left inside] at lengths
      refine ⟨fun _ => by omega, ?_⟩
      have split := same.trans (take_append_drop r.bytesRead _).symm
      rw [append_cancel_left split, drop_drop]
      by_cases all : r.bytesRead = toRead stop (some p) r
      · rw [all]
      · rw [drop_eq_nil_of_le (by omega), drop_eq_nil_of_le (by omega)]
    rintro ⟨full, rfl⟩
    have rest_ : (upTo content stop).drop (p + toRead stop (some p) r) =
        ((upTo content stop).drop p).drop r.bytesRead := by
      rw [drop_drop]
      by_cases all : r.bytesRead = toRead stop (some p) r
      · rw [all]
      · rw [drop_eq_nil_of_le (by omega), drop_eq_nil_of_le (by omega)]
    rw [rest_, take_append_drop]

theorem Delivers.eq_nil (delivers : Delivers content stop pos current reads bytes)
    (raised : reads.Pairwise fun r r' => r.highWaterMark ≤ r'.highWaterMark) {r : Read}
    (mem : r ∈ reads) (none_ : r.highWaterMark = 0) : bytes = [] := by
  cases delivers with
  | enough => rfl
  | ended => rfl
  | @chunk _ _ first reads bytes some_ asked =>
    have low : first.highWaterMark = 0 := by
      rcases mem_cons.mp mem with rfl | later
      · exact none_
      have := (pairwise_cons.mp raised).1 r later
      omega
    have : toRead stop pos first = 0 := by
      simp only [toRead, low, Nat.min_zero]
      split <;> rfl
    omega

end IoJs.Fs
