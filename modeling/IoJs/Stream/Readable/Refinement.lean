import IoJs.Stream.Readable.Nesting

/-!
# A Readable is a sequence

A Readable outside object mode is a tape of bytes, or of code units where an encoding is
set: `push()` appends to it, `unshift()` puts back, and every `'data'` event takes what it
delivers from the front (`ReadsSequence.plays`). What `read()` returns is what it emitted,
once for each return (`returned`). `refines_sequence` says so for every proper run.
-/

namespace IoJs.Stream.Readable

open IoJs.Library List

variable {Obj : Type} {kind : Frame Obj → Bool} {c c' b d : Config Obj} {s : ReadableState Obj}
  {env : Environment Obj} {options : Options} {chunk : Chunk Obj} {k : Int}

/-! ## The moves of a run -/

/-- The move that an event makes. -/
def Event.move? (objectMode : Bool) : Event Obj → Option (Tape.Move (Element Obj))
  | .pushed chunk => some (.append (chunk.elements objectMode))
  | .unshifted chunk => some (.putBack (chunk.elements objectMode))
  | .emitted (.data chunk) => some (.take (chunk.elements objectMode))
  | _ => none

/-- The moves of a trace. -/
def moves (objectMode : Bool) (trace : List (Event Obj)) : List (Tape.Move (Element Obj)) :=
  trace.filterMap (Event.move? objectMode)

/-- The chunks that were emitted. -/
def delivered (trace : List (Event Obj)) : List (Chunk Obj) :=
  trace.filterMap fun
    | .emitted (.data chunk) => some chunk
    | _ => none

/-- The chunks that `read()` returned. -/
def returned (trace : List (Event Obj)) : List (Chunk Obj) :=
  trace.filterMap fun
    | .result ret => ret
    | _ => none

/-- The chunks that a `read()` in progress is going to return. -/
def pending (stack : List (Frame Obj)) : List (Chunk Obj) :=
  stack.filterMap fun
    | .readReturn ret => ret
    | _ => none

section Appends

variable (objectMode : Bool) (trace trace' : List (Event Obj)) (stack stack' : List (Frame Obj))

@[simp] theorem moves_append :
    moves objectMode (trace ++ trace') = moves objectMode trace ++ moves objectMode trace' :=
  filterMap_append ..

@[simp] theorem delivered_append : delivered (trace ++ trace') = delivered trace ++
    delivered trace' :=
  filterMap_append ..

@[simp] theorem returned_append : returned (trace ++ trace') = returned trace ++ returned trace' :=
  filterMap_append ..

@[simp] theorem pending_append : pending (stack ++ stack') = pending stack ++ pending stack' :=
  filterMap_append ..

end Appends

section Silence

variable {events : List (Event Obj)} (silent : ∀ event ∈ events, event.silent = true)
include silent

theorem moves_of_silent (objectMode : Bool) : moves objectMode events = [] := by
  refine filterMap_eq_nil_iff.mpr fun event member => ?_
  have here := silent event member
  cases event with
  | emitted event => cases event <;> first | rfl | cases here
  | pushed => cases here
  | unshifted => cases here
  | _ => rfl

theorem delivered_of_silent : delivered events = [] := by
  refine filterMap_eq_nil_iff.mpr fun event member => ?_
  have here := silent event member
  cases event with
  | emitted event => cases event <;> first | rfl | cases here
  | _ => rfl

theorem returned_of_silent : returned events = [] := by
  refine filterMap_eq_nil_iff.mpr fun event member => ?_
  have here := silent event member
  cases event with
  | result ret => cases ret <;> first | rfl | cases here
  | _ => rfl

end Silence

theorem pending_of_quiet {frames : List (Frame Obj)}
    (quiet : ∀ frame ∈ frames, frame.quiet = true) : pending frames = [] := by
  refine filterMap_eq_nil_iff.mpr fun frame member => ?_
  have here := quiet frame member
  cases frame with
  | readReturn ret => cases ret <;> first | rfl | cases here
  | _ => rfl

/-! ## One step -/

theorem moves_inward (objectMode front : Bool) (chunk : Chunk Obj) :
    moves objectMode [.inward front chunk] = [if front then .putBack (chunk.elements objectMode)
        else .append (chunk.elements objectMode)] := by
  cases front <;> rfl

/-- What is delivered is at the front of the sequence. -/
def Plays (c : Config Obj) : Prop := Tape.Plays (moves c.state.objectMode c.trace) c.state.sequence

theorem Plays.idle (plays : Plays c) (idle : Idle kind c c') : Plays c' := by
  obtain ⟨events, trace, silent⟩ := idle.trace
  simpa [Plays, trace, moves_append, moves_of_silent silent, idle.objectMode,
    sequence_congr idle.objectMode (congrArg Store.buffer idle.store)] using plays

theorem Sound.sequence_eq_nil (sound : Sound s) (none : s.length = 0) : s.sequence = [] := by
  have length := sound.length
  exact eq_nil_of_length_eq_zero (by omega)

/-- A step plays its moves on the tape. -/
theorem Change.plays (change : Change c c') (sound : Sound c.state)
    (plays : Plays c) : Plays c' := by
  cases change with
  | own own =>
    cases own with
    | idle idle => exact plays.idle idle
    | takes k chunk before taken =>
      have played := plays.idle before
      rw [Plays, taken.trace, moves_append, taken.objectMode]
      refine .snoc played ?_
      simp [Tape.Move.Turns, taken.first, taken.sequence]
    | calls nOrig before open_ same =>
      have kept := plays.idle before
      rw [same]
      exact kept
    | finishes alone ended open_ none same =>
      rw [same, endReadableNow_eq open_ none, Plays, Config.emit_trace, moves_append,
        show moves _ [Event.emitted (Emission.end_ : Emission Obj)] = [] from rfl, append_nil]
      exact plays
  | fills front given chunk filled =>
    cases filled with
    | idle idle => exact plays.idle idle
    | stores holds waits stored =>
      obtain ⟨events, trace, silent⟩ := stored.trace
      rw [Plays, trace, append_cons, moves_append, moves_of_silent silent, append_nil,
        moves_append, moves_inward, stored.objectMode, stored.sequence]
      refine .snoc plays ?_
      cases front <;> rfl
    | passes passed =>
      have none := sound.sequence_eq_nil passed.empty
      have none' : c'.state.sequence = [] :=
        (sequence_congr passed.objectMode passed.buffer).trans none
      rw [Plays, none] at plays
      have enters : Tape.Plays (moves c.state.objectMode (c.trace ++ [.inward front chunk]))
          (chunk.elements c.state.objectMode) := by
        rw [moves_append, moves_inward]
        refine .snoc plays ?_
        cases front <;> simp [Tape.Move.Turns]
      rw [Plays, passed.trace, passed.objectMode, none', append_cons, moves_append]
      exact enters.snoc (append_nil _).symm
    | ends rest ended =>
      obtain ⟨events, trace, silent⟩ := ended.trace
      have parts : moves c.state.objectMode (rest.map Event.pushed) =
          (rest.map (Chunk.elements c.state.objectMode)).map .append := by
        simp [moves, filterMap_map, Function.comp_def, Event.move?]
      have added : moves c.state.objectMode (.ended :: events) = [] := by
        rw [← singleton_append, moves_append, moves_of_silent silent]
        rfl
      rw [Plays, trace, moves_append, moves_append, ended.objectMode, added, parts,
        append_nil, ended.sequence]
      exact Tape.Plays.appends plays (rest.map (Chunk.elements c.state.objectMode))
  | encodes encoding free same => exact same ▸ plays

theorem Base.plays (base : Base c b) (plays : Plays c) : Plays b := by
  have same : moves c.state.objectMode b.trace = moves c.state.objectMode c.trace := by
    rcases base.popped with ⟨-, trace⟩ | ⟨chunk, -, trace⟩
    · rw [trace]
    rw [trace, moves_append]
    exact append_nil _
  rw [Plays, base.objectMode, base.sequence, same]
  exact plays

/-- Every chunk that `read()` returned, or is going to return, was emitted for it. -/
def Matched (c : Config Obj) : Prop :=
  (returned c.trace ++ pending c.stack).Subperm (delivered c.trace)

theorem Base.matched (base : Base c b) (matched : Matched c) : Matched b := by
  rcases base.popped with ⟨⟨frames, stack⟩, trace⟩ | ⟨chunk, stack, trace⟩
  · rw [Matched, ← stack, pending_append] at matched
    rw [Matched, trace]
    refine List.Sublist.subperm ?_ |>.trans matched
    simp
  have more : returned b.trace = returned c.trace ++ [chunk] := by
    rw [trace, returned_append]
    rfl
  have same : delivered b.trace = delivered c.trace := by
    rw [trace, delivered_append]
    exact append_nil _
  have next : pending c.stack = chunk :: pending b.stack := by
    rw [stack]
    rfl
  rw [Matched, next] at matched
  simpa [Matched, more, same] using matched

theorem Matched.idle (matched : Matched c)
    (idle : Idle kind c c') (quiet : ∀ frame, kind frame = true → frame.quiet = true) :
    Matched c' := by
  obtain ⟨events, trace, silent⟩ := idle.trace
  obtain ⟨frames, stack, all⟩ := idle.stack
  have none := pending_of_quiet fun frame member => quiet frame (all frame member)
  simpa [Matched, trace, stack, returned_append, delivered_append, pending_append,
    returned_of_silent silent, delivered_of_silent silent, none] using matched

theorem Change.matched (change : Change c c') (matched : Matched c) : Matched c' := by
  -- a chunk goes in and nothing comes out
  have enters {d : Config Obj} (frames : List (Frame Obj)) {events : List (Event Obj)}
      (stack : d.stack = frames ++ c.stack) (trace : d.trace = c.trace ++ events)
      (quiet : pending frames = []) (kept : returned events = []) : Matched d := by
    rw [Matched, stack, trace, returned_append, pending_append, delivered_append, quiet, kept,
      append_nil, nil_append]
    exact List.Subperm.trans matched (sublist_append_left _ _).subperm
  have calm (frames : List (Frame Obj))
      (all : ∀ frame ∈ frames, frame.calm c.state.sync = true) : pending frames = [] :=
    pending_of_quiet fun frame member => frame.quiet_of_calm _ (all frame member)
  cases change with
  | own own =>
    cases own with
    | idle idle => exact matched.idle idle fun _ => id
    | takes k chunk before taken =>
      have kept := matched.idle before fun _ => id
      have more : ∀ stack : List (Frame Obj),
          pending (.user (.listeners (.data chunk)) :: .readReturn (some chunk) :: stack) =
            chunk :: pending stack := fun _ => rfl
      rw [Matched, taken.stack, taken.trace, returned_append, delivered_append, more]
      have added := (subperm_append_right [chunk]).mpr kept
      refine List.Subperm.trans (List.Perm.subperm ?_) added
      simpa [returned] using perm_middle.trans (perm_append_singleton _ _).symm
    | calls nOrig before open_ same =>
      have kept := matched.idle before fun _ => id
      rw [same]
      exact kept
    | finishes alone ended open_ none same =>
      rw [same, endReadableNow_eq open_ none]
      exact enters [.user (.listeners .end_)] rfl rfl rfl rfl
  | fills front given chunk filled =>
    cases filled with
    | idle idle => exact matched.idle idle fun frame => frame.quiet_of_calm _
    | stores holds waits stored =>
      obtain ⟨frames, stack, all⟩ := stored.stack
      obtain ⟨events, trace, silent⟩ := stored.trace
      refine enters frames stack trace (calm frames all) ?_
      rw [← singleton_append, returned_append, returned_of_silent silent]
      cases front <;> rfl
    | passes passed =>
      refine enters [.user (.listeners (.data chunk)), .addChunkRead] passed.stack passed.trace
        rfl ?_
      cases front <;> rfl
    | ends rest ended =>
      obtain ⟨frames, stack, all⟩ := ended.stack
      obtain ⟨events, trace, silent⟩ := ended.trace
      rw [append_assoc] at trace
      refine enters frames stack trace (calm frames all) ?_
      rw [returned_append, ← singleton_append, returned_append, returned_of_silent silent]
      simp [returned, filterMap_map]
  | encodes encoding free same => exact same ▸ matched

/-! ## Whole runs -/

/-- What is kept by every step, whatever the mode. -/
structure SequenceInv (c : Config Obj) : Prop where
  inv : Inv c
  plays : Plays c
  matched : Matched c

/-- A proper step keeps the sequence, whatever the mode. -/
theorem SequenceInv.step {a : Action Obj}
    (inv : SequenceInv c) (proper : Proper c a) (stepped : step env c a = some c') :
    SequenceInv c' := by
  obtain ⟨b, base, change⟩ := (inv.inv.stepped proper stepped).change
  exact ⟨inv.inv.step proper stepped,
    change.plays (base.sound inv.inv.sound) (base.plays inv.plays),
    change.matched (base.matched inv.matched)⟩

theorem SequenceInv.of_run
    (run : Run (Readable.step env) Proper (Config.new options) c) : SequenceInv c :=
  run.invariant SequenceInv ⟨.new options, .nil, nil_subperm⟩ fun inv proper stepped =>
    inv.step proper stepped

theorem objectMode_of_run (run : Run (step env) Proper (Config.new options) c) :
    c.state.objectMode = options.objectMode := by
  have both : Inv c ∧ c.state.objectMode = options.objectMode := by
    refine run.invariant (fun c => Inv c ∧ c.state.objectMode = options.objectMode)
      ⟨.new options, rfl⟩ ?_
    rintro s s' a ⟨inv, mode⟩ proper stepped
    obtain ⟨b, base, change⟩ := (inv.stepped proper stepped).change
    exact ⟨inv.step proper stepped, change.objectMode.trans (base.objectMode.trans mode)⟩
  exact both.2

/-- `read()` emits the first `k` elements, and is going to return them. -/
structure Delivers (c c' : Config Obj) (k : Nat) (below : List (Frame Obj)) : Prop where
  chunk : ∃ chunk : Chunk Obj, chunk.elements c.state.objectMode = c.state.sequence.take k ∧
    c'.trace = c.trace ++ [.emitted (.data chunk)] ∧
    c'.stack = .user (.listeners (.data chunk)) :: .readReturn (some chunk) :: below
  rest : c'.state.sequence = c.state.sequence.drop k

theorem Takes.delivers {k : Nat} (alike : Alike c d)
    (taken : Takes d c' k chunk) : Delivers c c' k c.stack := by
  have same := sequence_congr alike.objectMode (congrArg Store.buffer alike.store)
  refine ⟨⟨chunk, ?_, ?_, ?_⟩, ?_⟩
  · rw [← alike.objectMode, taken.first, same]
  · rw [taken.trace, alike.trace]
  · rw [taken.stack, alike.stack]
  · rw [taken.sequence, same]

theorem howMuchToRead_of_le (mode : s.objectMode = false)
    (positive : 0 < k) (within : k ≤ s.length) : howMuchToRead (some k) s = k := by
  have some_ : s.length ≠ 0 := by omega
  simp only [howMuchToRead, mode, some_, decide_false, Bool.false_and, Bool.false_eq_true, if_false]
  rw [if_neg (by omega), if_neg (by omega)]

theorem Reads.delivers (reads : Reads c (some k) c')
    (mode : c.state.objectMode = false) (positive : 0 < k) (within : k ≤ c.state.length) :
    Delivers c c' k.toNat c.stack ∨
      c'.stack = .user .implementation :: .read (some k) k :: c.stack := by
  have amount := howMuchToRead_of_le mode positive within
  cases reads with
  | zero => grind
  | null => omega
  | takes chunk before taken =>
    rw [amount] at taken
    exact .inl (taken.delivers before)
  | calls before => simp [amount, callRead, before.stack]

theorem readAfter_delivers (sound : Sound c.state)
    (mode : c.state.objectMode = false) (positive : 0 < k)
    (bounded : Bounded c.state k) : Delivers c (readAfter c (some k) k) k.toNat c.stack := by
  have within : k ≤ c.state.length := by simpa [Bounded, mode] using bounded.2
  have amount := howMuchToRead_of_le mode positive within
  obtain ⟨d, m, same, alike, taken⟩ := readAfter_spec sound (some k) bounded
  obtain rfl : m = k := by simp [same, amount]
  rcases taken with ⟨-, -, chunk, taken⟩ | ⟨nothing, -⟩
  · have delivers := taken.delivers alike
    exact ⟨delivers.chunk, delivers.rest⟩
  · omega

theorem readableAddChunk_moves
    {encoding : String} {front : Bool} (admitted : c.state.admits front = true)
    (size : 0 < chunk.size)
    (fit : fits c.state (decodeChunk env c.state chunk encoding front).1 = true) (mode : Bool) :
    ∃ later, moves mode (readableAddChunk env c chunk encoding front).trace = moves mode c.trace ++
        moves mode [.inward front (decodeChunk env c.state chunk encoding front).1] ++ later := by
  have whole : readableAddChunk env c chunk encoding front =
    addData env c chunk encoding front := by
    have open_ : (c.state.ended && !front) = false ∧ (c.state.endEmitted && front) = false := by
      cases front <;> simpa [ReadableState.admits] using admitted
    have holds : holdsData c.state chunk = true := by simp [holdsData, size]
    cases chunk with
    | buffer | string =>
      simp [readableAddChunk, chunkInvalid, Chunk.isNull, holds, open_]
    | _ => simp [Chunk.size, Chunk.length?] at size
  rw [whole]
  rcases addData_spec env c chunk encoding front admitted fit with ⟨-, stored⟩ | passed
  · obtain ⟨events, trace, -⟩ := stored.trace
    exact ⟨moves mode events, by rw [trace, append_cons, moves_append, moves_append]⟩
  · exact ⟨_, by rw [passed.trace, append_cons, moves_append, moves_append]⟩

/-- A Readable is a sequence: `length` is its length, what is pushed and put back goes in
where it should, and what is emitted, and then returned, comes from the front. -/
structure ReadsSequence (env : Environment Obj) (c : Config Obj) : Prop where
  length : c.state.length = (c.state.buffer.map Chunk.size).sum
  plays : Tape.Plays (moves false c.trace) c.state.sequence
  returned : (returned c.trace ++ pending c.stack).Subperm (delivered c.trace)
  pushes : ∀ chunk encoding c', Proper c (.push chunk encoding) → c.state.ended = false →
    0 < (pushedAs env c.state chunk encoding).1.size →
    step env c (.push chunk encoding) = some c' →
    ∃ later, moves false c'.trace = moves false c.trace ++
      .append ((pushedChunk env c.state chunk encoding).elements false) :: later
  unshifts : ∀ chunk c', Proper c (.unshift chunk) → c.state.endEmitted = false →
    0 < chunk.size → step env c (.unshift chunk) = some c' →
    ∃ later, moves false c'.trace = moves false c.trace ++ .putBack (chunk.elements false) :: later
  /-- `read(k)` delivers `k` elements, or calls `_read` before -/
  reads : ∀ (k : Int) c', 0 < k → k ≤ c.state.length → step env c (.read (some k)) = some c' →
    Delivers c c' k.toNat c.stack ∨ c'.stack = .user .implementation :: .read (some k) k :: c.stack
  /-- after `_read` it delivers them -/
  resumes : ∀ (k : Int) rest c', 0 < k → c.stack = .read (some k) k :: rest →
    step env c .resume = some c' → Delivers c c' k.toNat rest
  /-- where nothing is put back, what was emitted and what is left is what was pushed -/
  conserved : (∀ chunk, .unshifted chunk ∉ c.trace) →
    Tape.taken (moves false c.trace) ++ c.state.sequence = Tape.appended (moves false c.trace)

theorem length_eq_sum (list : List (Chunk Obj)) :
    (elementsOf false list).length = (list.map Chunk.size).sum := by
  induction list with
  | nil => rfl
  | cons chunk list ih => simp [elementsOf_cons, ih, chunk.elements_length]

theorem isPutBack_of_no_unshift {mode : Bool} {trace : List (Event Obj)}
    (none : ∀ chunk, .unshifted chunk ∉ trace) :
    ∀ move ∈ moves mode trace, move.isPutBack = false := by
  intro move member
  obtain ⟨event, member, same⟩ := mem_filterMap.mp member
  cases event with
  | unshifted chunk => exact absurd member (none chunk)
  | pushed =>
    cases same
    rfl
  | emitted event =>
    cases event with
    | data =>
      cases same
      rfl
    | _ => cases same
  | _ => cases same

theorem eq_of_userTurn (done : (if c.userTurn then some d else none) = some c') : c' = d := by grind

/-- **A Readable refines a sequence of elements**, in every proper run outside object
mode. -/
theorem refines_sequence {env : Environment Obj} {options : Options} {c : Config Obj}
    (mode : options.objectMode = false) (run : Run (step env) Proper (Config.new options) c) :
    ReadsSequence env c := by
  obtain ⟨inv, plays, matched⟩ := SequenceInv.of_run run
  have mode : c.state.objectMode = false := (objectMode_of_run run).trans mode
  rw [Plays, mode] at plays
  refine ⟨?_, plays, matched, ?_, ?_, ?_, ?_, ?_⟩
  · rw [inv.sound.length, ReadableState.sequence, mode, length_eq_sum]
  · intro chunk encoding c' proper open_ size stepped
    have fit : fits c.state (pushedChunk env c.state chunk encoding) = true :=
      fits_pushedChunk inv.consistent proper (by simp [holdsData, size])
    have admitted : c.state.admits false = true := by simp [ReadableState.admits, open_]
    obtain ⟨later, added⟩ := readableAddChunk_moves admitted size fit false
    refine ⟨later, ?_⟩
    rw [eq_of_userTurn stepped, ← singleton_append, ← append_assoc]
    exact added
  · intro chunk c' proper open_ size stepped
    have same := decodeChunk_front env c.state chunk ""
    have admitted : c.state.admits true = true := by simp [ReadableState.admits, open_]
    obtain ⟨later, added⟩ := readableAddChunk_moves admitted size (same.symm ▸ proper.2) false
    refine ⟨later, ?_⟩
    rw [eq_of_userTurn stepped, ← singleton_append, ← append_assoc]
    rw [same] at added
    exact added
  · intro k c' positive within stepped
    rw [eq_of_userTurn stepped]
    exact (read_spec inv.sound (some k)).delivers mode positive within
  · intro k rest c' positive top stepped
    have bounded := inv.bounded _ _ _ top
    simp only [step, top, resume, Option.some.injEq] at stepped
    rw [← stepped]
    have delivers := readAfter_delivers (c := { c with stack := rest }) inv.sound mode positive
      bounded
    exact ⟨delivers.chunk, delivers.rest⟩
  · exact fun none => plays.taken_append (isPutBack_of_no_unshift none)

/-- One byte for each code unit, as for the encoding `'binary'`. -/
def plainEnvironment : Environment Obj where
  newBuffer units _ := units.map fun unit => unit.toUInt8
  toString _ bytes := bytes.map fun byte => byte.toUInt16
  writeValue d _ := (d, [])

/-- `read(4)` takes the first of two chunks and a part of the second. -/
theorem refines_sequence_of_two_chunks : ∃ c : Config Empty, c.state.buffer = [.buffer [5]] ∧
    returned c.trace = [.buffer [1, 2, 3, 4]] ∧ ReadsSequence plainEnvironment c := by
  obtain ⟨c, run, buffer, ret⟩ := Run.exists_of_exec (step plainEnvironment) Proper
    (Config.new {} : Config Empty)
    (fun c => c.state.buffer = [.buffer [5]] ∧ returned c.trace = [.buffer [1, 2, 3, 4]])
    [.push (.buffer [1, 2, 3]) "", .resume, .push (.buffer [4, 5]) "", .resume,
      .read (some 4), .ret, .resume,  -- `_read` does nothing
      .ret, .resume] (by decide)
  exact ⟨c, buffer, ret, refines_sequence rfl run⟩

/-- **In object mode a Readable is a queue of chunks**: `length` counts them, whatever their size,
and one that is pushed is emitted once, in its turn, or is still there. -/
theorem refines_queue {env : Environment Obj} {options : Options} {c : Config Obj}
    (mode : options.objectMode = true) (run : Run (step env) Proper (Config.new options) c) :
    c.state.length = c.state.buffer.length ∧
      Tape.Plays (moves true c.trace) c.state.sequence ∧
      (returned c.trace ++ pending c.stack).Subperm (delivered c.trace) ∧
      ((∀ chunk, .unshifted chunk ∉ c.trace) →
        Tape.taken (moves true c.trace) ++ c.state.sequence =
          Tape.appended (moves true c.trace)) := by
  obtain ⟨inv, plays, matched⟩ := SequenceInv.of_run run
  have mode : c.state.objectMode = true := (objectMode_of_run run).trans mode
  rw [Plays, mode] at plays
  refine ⟨?_, plays, matched, fun none => plays.taken_append (isPutBack_of_no_unshift none)⟩
  have each : ∀ list : List (Chunk Obj), (elementsOf true list).length = list.length := by
    intro list
    induction list with
    | nil => rfl
    | cons chunk list ih => simp [elementsOf_cons, ih, Chunk.elements, Nat.add_comm]
  rw [inv.sound.length, ReadableState.sequence, mode, each]

/-- An empty Buffer is a chunk as any other: `read()` returns the one before it. -/
theorem refines_queue_empty_chunk : ∃ c : Config Empty, returned c.trace = [.buffer [1, 2]] ∧
    c.state.length = c.state.buffer.length ∧ c.state.buffer = [.buffer []] := by
  obtain ⟨c, run, ret, buffer⟩ := Run.exists_of_exec (step plainEnvironment) Proper
    (Config.new { objectMode := true } : Config Empty)
    (fun c => returned c.trace = [.buffer [1, 2]] ∧ c.state.buffer = [.buffer []])
    [.push (.buffer [1, 2]) "", .resume, .push (.buffer []) "", .resume, .read none, .ret, .resume,
      .ret, .resume] (by decide)
  exact ⟨c, ret, (refines_queue rfl run).1, buffer⟩

end IoJs.Stream.Readable
