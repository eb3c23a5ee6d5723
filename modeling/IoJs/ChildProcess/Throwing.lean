import IoJs.ChildProcess.Pairing

/-!
# Listeners that throw

A listener of a message may throw. Then the exception leaves `onread` out of its loop, and what the
loop has gone through is not cut off from `jsonBuffer`: the messages before it come again with the
next call, and those after it wait until then, behind the one that throws. So each message is
emitted once only if the listeners of all throw nothing, but the last one's with the last call
(`delivered_iff`).
-/

namespace IoJs.ChildProcess

open IoJs.Buffer IoJs.RegExp IoJs.Stream IoJs.StringDecoder List

variable {json : JSON} {H : Type} {toString : ToString}
variable {r r' : Receiver H} {done : List (Line json)} {recvHandle : Option H}

/-! ## The code -/

/-- A call of `target.emit` -/
structure Emission (H : Type) where
  -- the index of the message in the stream, which the source does not have
  number : Nat
  eventName : JSString
  message : Json
  handle : Option H

def handleMessage (number : Nat) (message : Json) (handle : Option H) : Emission H where
  number := number
  eventName := if isInternal message then js "internalMessage" else js "message"
  message := message
  handle := handle

/-- The loop of `onread`: what is emitted, and, if nothing is thrown, the number of the message
after the loop and the receiver -/
def loop (json : JSON) (throws : Nat → Bool) (recvHandle : Option H) (number : Nat)
    (r : Receiver H) :
    List (Emission H) × Option (Nat × Receiver H) :=
  match round : r.next json recvHandle with
  | .message message handle r' =>
    let emission := handleMessage number message handle
    if throws number then ([emission], none)
    else
      let rest := loop json throws recvHandle (number + 1) r'
      (emission :: rest.1, rest.2)
  | .done r' => ([], some (number, r'))
  | .throws => ([], none)
termination_by r.jsonBuffer.length
decreasing_by exact length_next round

/-- The receiver with what its target has emitted -/
structure Listened (H : Type) where
  receiver : Receiver H
  -- the number of the message that `jsonBuffer` begins with
  first : Nat
  emitted : List (Emission H)

namespace Listened

def new : Listened H := { receiver := .new, first := 0, emitted := [] }

/-- `onread`, with listeners of which some throw -/
def onread (toString : ToString) (json : JSON) (throws : Nat → Bool) (t : Listened H)
    (segment : Segment H) : Listened H :=
  let r := t.receiver.read toString segment.pool segment.recvHandle
  match loop json throws segment.recvHandle t.first r with
  | (emissions, some (first, r)) =>
    { receiver := r, first := first, emitted := t.emitted ++ emissions }
  -- `start` is lost, and `buffering` is not set.
  | (emissions, none) =>
    { receiver := { r with call := none }, first := t.first, emitted := t.emitted ++ emissions }

/-- Call after call; what is thrown is handled outside. -/
def onreads (toString : ToString) (json : JSON) (throws : Nat → Bool) (t : Listened H)
    (segments : List (Segment H)) : Listened H :=
  segments.foldl (onread toString json throws) t

end Listened

/-! ## The specification -/

/-- How many of the lines are complete in the first `n` bytes of their stream -/
def complete : List (Line json) → Nat → Nat
  | [], _ => 0
  | line :: lines, n =>
    if line.bytes.length ≤ n then complete lines (n - line.bytes.length) + 1 else 0

/-- The bytes of some calls -/
def received (segments : List (Segment H)) : Nat := (pools segments).flatten.length

/-- Each message that is complete in the first `n` bytes is emitted once, and in order. -/
structure Delivered (lines : List (Line json)) (n : Nat) (emitted : List (Emission H)) : Prop where
  once : emitted.map (·.number) = List.range (complete lines n)
  messages : emitted.map (·.message) = (lines.take (complete lines n)).map (·.value)

/-! ## Complete lines -/

variable {lines later : List (Line json)} {wire : List UInt8} {throws : Nat → Bool}

theorem length_stream_cons (line : Line json) (lines : List (Line json)) :
    (utf8Encode (Line.stream (line :: lines))).length =
      line.bytes.length + (utf8Encode (Line.stream lines)).length := by
  simp [Line.stream_cons, utf8Encode_append, Line.bytes]

theorem complete_append (done later : List (Line json)) (n : Nat) :
    complete (done ++ later) ((utf8Encode (Line.stream done)).length + n) =
      done.length + complete later n := by
  induction done with
  | nil => simp
  | cons line done ih =>
    have size := length_stream_cons line done
    have left : (utf8Encode (Line.stream (line :: done))).length + n - line.bytes.length =
        (utf8Encode (Line.stream done)).length + n := by
      omega
    rw [cons_append, complete, if_pos (by omega), left, ih, length_cons]
    omega

theorem complete_mono (lines : List (Line json)) {m n : Nat} (le : m ≤ n) :
    complete lines m ≤ complete lines n := by
  induction lines generalizing m n with
  | nil => exact Nat.le_refl 0
  | cons line lines ih =>
    rw [complete, complete]
    split_ifs with short long
    · exact Nat.succ_le_succ (ih (by omega))
    · omega
    · exact Nat.zero_le _
    · exact Nat.zero_le _

theorem complete_le (lines : List (Line json)) (n : Nat) : complete lines n ≤ lines.length := by
  induction lines generalizing n with
  | nil => exact Nat.le_refl 0
  | cons line lines ih =>
    rw [complete]
    split_ifs
    · exact Nat.succ_le_succ (ih _)
    · exact Nat.zero_le _

/-- How many of the lines are complete before the bytes that are still to be read -/
def ready (lines : List (Line json)) (wire : List UInt8) : Nat :=
  complete lines ((utf8Encode (Line.stream lines)).length - wire.length)

theorem ready_cons (line : Line json) (le : wire.length ≤ (utf8Encode (Line.stream later)).length) :
    ready (line :: later) wire = ready later wire + 1 := by
  have size := length_stream_cons line later
  have left : (utf8Encode (Line.stream (line :: later))).length - wire.length - line.bytes.length =
      (utf8Encode (Line.stream later)).length - wire.length := by
    omega
  rw [ready, complete, if_pos (by omega), left, ready]

theorem ready_le_length : ready lines wire ≤ lines.length := complete_le lines _

theorem Receiving.ready_eq_zero (receiving : Receiving r wire lines)
    (idle : r.call = none) : ready lines wire = 0 := by
  cases lines with
  | nil => rfl
  | cons line later =>
    have size := length_stream_cons line later
    have unread := receiving.lt_wire idle
    have positive := line.bytes_pos
    rw [ready, complete, if_neg (by omega)]

theorem complete_received {segments : List (Segment H)}
    (cut : (pools segments).flatten ++ wire = utf8Encode (Line.stream (done ++ later)))
    (le : wire.length ≤ (utf8Encode (Line.stream later)).length) :
    complete (done ++ later) (received segments) = done.length + ready later wire := by
  have size := congrArg List.length cut
  rw [length_append, Line.stream_append, utf8Encode_append, length_append] at size
  have eq : received segments = (utf8Encode (Line.stream done)).length +
      ((utf8Encode (Line.stream later)).length - wire.length) := by
    rw [received]
    omega
  rw [eq, complete_append, ready]

/-! ## The loop -/

/-- What a call emits for some lines -/
def emissions (recvHandle : Option H) : Nat → List (Line json) → List (Emission H)
  | _, [] => []
  | number, line :: lines =>
    handleMessage number line.value (entry line recvHandle).2 ::
      emissions recvHandle (number + 1) lines

theorem emissions_number (recvHandle : Option H) (number : Nat) (lines : List (Line json)) :
    (emissions recvHandle number lines).map (·.number) = List.range' number lines.length := by
  induction lines generalizing number with
  | nil => rfl
  | cons line lines ih =>
    rw [emissions, map_cons, ih, length_cons, range'_succ]
    rfl

theorem emissions_message (recvHandle : Option H) (number : Nat) (lines : List (Line json)) :
    (emissions recvHandle number lines).map (·.message) = lines.map (·.value) := by
  induction lines generalizing number with
  | nil => rfl
  | cons line lines ih =>
    rw [emissions, map_cons, ih, map_cons]
    rfl

variable {r : Receiver H} {number : Nat}

theorem loop_of_message {handle : Option H} {message : Json}
    (round : r.next json recvHandle = .message message handle r') :
    loop json throws recvHandle number r =
      if throws number then ([handleMessage number message handle], none)
      else (handleMessage number message handle ::
        (loop json throws recvHandle (number + 1) r').1,
        (loop json throws recvHandle (number + 1) r').2) := by
  grind [loop]

theorem loop_of_done (round : r.next json recvHandle = .done r') :
    loop json throws recvHandle number r = ([], some (number, r')) := by
  grind [loop]

section

variable (receiving : Receiving r wire lines)
include receiving

theorem Receiving.loop_quiet (recvHandle : Option H)
    (quiet : ∀ i < ready lines wire, throws (number + i) = false) :
    ∃ r', loop json throws recvHandle number r =
        (emissions recvHandle number (lines.take (ready lines wire)),
          some (number + ready lines wire, r')) ∧
      Receiving r' wire (lines.drop (ready lines wire)) ∧ r'.call = none := by
  induction lines generalizing r number with
  | nil =>
    rcases receiving.next recvHandle with ⟨line, later, r', eq, -⟩ | ⟨r', round, same, idle⟩
    · cases eq
    · exact ⟨r', loop_of_done round, same, idle⟩
  | cons line lines ih =>
    rcases receiving.next recvHandle with ⟨line', later, r', eq, round, rest, -⟩ |
      ⟨r', round, same, idle⟩
    · obtain ⟨rfl, rfl⟩ := List.cons.inj eq
      have one := ready_cons line rest.wire_le
      have calm : throws number = false := quiet 0 (by omega)
      obtain ⟨r'', result, left, idle⟩ := @ih r' (number + 1) rest (by
        intro i lt
        rw [Nat.add_assoc, Nat.add_comm 1 i]
        exact quiet (i + 1) (by omega))
      refine ⟨r'', ?_, by rwa [one, drop_succ_cons], idle⟩
      rw [loop_of_message round, calm, if_neg Bool.false_ne_true, result, one,
        take_succ_cons, emissions, Nat.add_assoc, Nat.add_comm 1]
      rfl
    have none := same.ready_eq_zero idle
    rw [none]
    exact ⟨r', loop_of_done round, same, idle⟩

theorem Receiving.loop_thrown (recvHandle : Option H) {k : Nat}
    (lt : k < ready lines wire) (quiet : ∀ i < k, throws (number + i) = false)
    (thrown : throws (number + k) = true) :
    loop json throws recvHandle number r =
      (emissions recvHandle number (lines.take (k + 1)), none) := by
  induction lines generalizing r number k with
  | nil => exact absurd lt (Nat.not_lt_zero k)
  | cons line lines ih =>
    rcases receiving.next recvHandle with ⟨line', later, r', eq, round, rest, -⟩ |
      ⟨r', round, same, idle⟩
    · obtain ⟨rfl, rfl⟩ := List.cons.inj eq
      have one := ready_cons line rest.wire_le
      cases k with
      | zero =>
        rw [Nat.add_zero] at thrown
        rw [loop_of_message round, if_pos thrown]
        rfl
      | succ k =>
        have calm : throws number = false := quiet 0 (Nat.succ_pos k)
        have result := @ih r' (number + 1) rest k (by omega)
          (by
            intro i below
            rw [Nat.add_assoc, Nat.add_comm 1 i]
            exact quiet (i + 1) (by omega))
          (by rwa [Nat.add_assoc, Nat.add_comm 1 k])
        rw [loop_of_message round, calm, if_neg Bool.false_ne_true, result,
          take_succ_cons, emissions]
        rfl
    · simp [same.ready_eq_zero idle] at lt

theorem Receiving.loop_head (throws : Nat → Bool)
    (number : Nat) (recvHandle : Option H) (some_ready : 0 < ready lines wire) :
    number ∈ (loop json throws recvHandle number r).1.map (·.number) := by
  rcases receiving.next recvHandle with ⟨line, later, r', rfl, round, -⟩ | ⟨r', -, same, idle⟩
  · rw [loop_of_message round]
    split
    · exact mem_singleton_self number
    · exact mem_cons_self
  · simp [same.ready_eq_zero idle] at some_ready

end

/-! ## Runs -/

theorem received_snoc (segments : List (Segment H)) (segment : Segment H) :
    received (segments ++ [segment]) = received segments + segment.pool.length := by
  simp [received, pools]

theorem ready_mono (pool : List UInt8) (lines : List (Line json)) (wire : List UInt8) :
    ready lines (pool ++ wire) ≤ ready lines wire := by
  apply complete_mono
  rw [length_append]
  omega

namespace Listened

variable {t : Listened H} {segment : Segment H} {out : List (Emission H)}

theorem onreads_snoc (segments : List (Segment H)) (segment : Segment H) :
    t.onreads toString json throws (segments ++ [segment]) =
      (t.onreads toString json throws segments).onread toString json throws segment := by
  simp [onreads]

theorem onread_emitted (segment : Segment H) :
    (t.onread toString json throws segment).emitted = t.emitted ++
      (loop json throws segment.recvHandle t.first
        (t.receiver.read toString segment.pool segment.recvHandle)).1 := by
  rw [onread]
  split
  · next eq => rw [eq]
  · next eq => rw [eq]

theorem onread_of_returned {first : Nat} (result : loop json throws segment.recvHandle t.first
      (t.receiver.read toString segment.pool segment.recvHandle) = (out, some (first, r))) :
    t.onread toString json throws segment =
      { receiver := r, first := first, emitted := t.emitted ++ out } := by
  rw [onread, result]

theorem onread_of_thrown (result : loop json throws segment.recvHandle t.first
      (t.receiver.read toString segment.pool segment.recvHandle) = (out, none)) :
    t.onread toString json throws segment =
      { receiver := { t.receiver.read toString segment.pool segment.recvHandle with call := none }
        first := t.first, emitted := t.emitted ++ out } := by
  rw [onread, result]

end Listened

/-- Nothing has been thrown: the lines before `first` are emitted, and the others are received. -/
structure Smooth (t : Listened H) (wire : List UInt8) (done later : List (Line json)) : Prop where
  first : t.first = done.length
  numbers : t.emitted.map (·.number) = List.range done.length
  messages : t.emitted.map (·.message) = done.map (·.value)
  receiving : Receiving t.receiver wire later
  idle : t.receiver.call = none

/-- A message that has been emitted is still in the buffer, with its line feed. -/
structure Uncut (t : Listened H) (wire : List UInt8) (done later : List (Line json)) : Prop where
  first : t.first = done.length
  emitted : done.length ∈ t.emitted.map (·.number)
  receiving : Receiving ({ t.receiver with call := some none } : Receiver H) wire later
  left : 0 < ready later wire

/-- After some calls, the last of which began with `before` complete lines and ended with `now` -/
inductive Run (throws : Nat → Bool) (lines : List (Line json)) (wire : List UInt8) (t : Listened H)
    (before now : Nat) : Prop where
  | smooth (done later : List (Line json)) (split : lines = done ++ later) (all : now = done.length)
      (smooth : Smooth t wire done later) (quiet : ∀ i < now, throws i = false)
  -- in the last call
  | thrown (done later : List (Line json)) (split : lines = done ++ later)
      (uncut : Uncut t wire done later) (i : Nat) (fresh : before ≤ i) (lt : i < now)
      (throws_at : throws i = true) (quiet : ∀ j < i, throws j = false)
      (numbers : t.emitted.map (·.number) = List.range (i + 1))
      (messages : t.emitted.map (·.message) = (lines.take (i + 1)).map (·.value))
  -- in a call before it
  | repeated (twice : ¬(t.emitted.map (·.number)).Nodup) (i : Nat) (lt : i < before)
      (le : before ≤ now) (throws_at : throws i = true)

variable {t : Listened H}

theorem emissions_append (now : List (Line json))
    (recvHandle : Option H) (numbers : t.emitted.map (·.number) = List.range done.length)
    (messages : t.emitted.map (·.message) = done.map (·.value)) :
    (t.emitted ++ emissions recvHandle done.length now).map (·.number) =
        List.range (done ++ now).length ∧
      (t.emitted ++ emissions recvHandle done.length now).map (·.message) =
        (done ++ now).map (·.value) := by
  constructor
  · have joined := range'_append_1 (s := 0) (m := done.length) (n := now.length)
    rw [Nat.zero_add] at joined
    simp [map_append, numbers, emissions_number, range_eq_range', joined, length_append]
  · simp [messages, emissions_message]

variable {t : Listened H} {segment : Segment H} {done : List (Line json)}

theorem quiet_add {first count : Nat} (quiet : ∀ i < first, throws i = false)
    (calm : ∀ i < count, throws (first + i) = false) : ∀ i < first + count, throws i = false := by
  intro i below
  by_cases old : i < first
  · exact quiet i old
  have new := calm (i - first) (by omega)
  rwa [Nat.add_sub_cancel' (by omega)] at new

section

variable (decodes : ∀ text, toString "utf8" (utf8Encode text) = utf16Encode text)
include decodes

theorem Smooth.onread_thrown {i : Nat} (smooth : Smooth t (segment.pool ++ wire) done later)
    (quiet : ∀ i < done.length, throws i = false) (lt : i < ready later wire)
    (calm : ∀ j < i, throws (done.length + j) = false)
    (throws_at : throws (done.length + i) = true) :
    Run throws (done ++ later) wire (t.onread toString json throws segment) done.length
      (done.length + ready later wire) := by
  have receiving := smooth.receiving.read decodes segment.recvHandle
  have result := receiving.loop_thrown segment.recvHandle lt calm throws_at
  rw [← smooth.first] at result
  have after := Listened.onread_of_thrown result
  have added := emissions_append (later.take (i + 1)) segment.recvHandle
    smooth.numbers smooth.messages
  rw [← smooth.first] at added
  have long : i + 1 ≤ later.length := lt.trans_le ready_le_length
  have shape : (done ++ later).take (done.length + i + 1) = done ++ later.take (i + 1) := by
    rw [Nat.add_assoc, take_length_add_append]
  refine .thrown done later rfl ?_ (done.length + i) (Nat.le_add_right _ _) (by omega) throws_at
    (quiet_add quiet calm) ?_ ?_
  · rw [after]
    refine ⟨smooth.first, ?_, ?_, Nat.zero_lt_of_lt lt⟩
    · rw [added.1, mem_range, length_append, length_take]
      omega
    obtain ⟨part, pending, rest, buffer, awaits, left, split, -⟩ := receiving.buffered
    exact ⟨part, pending, rest, buffer, awaits, left, split, nofun⟩
  · rw [after, added.1, length_append, length_take_of_le long, Nat.add_assoc]
  · rw [after, added.2, shape]

theorem Smooth.onread_quiet (smooth : Smooth t (segment.pool ++ wire) done later)
    (quiet : ∀ i < done.length, throws i = false)
    (calm : ∀ i < ready later wire, throws (done.length + i) = false) :
    Run throws (done ++ later) wire (t.onread toString json throws segment) done.length
      (done.length + ready later wire) := by
  have receiving := smooth.receiving.read decodes segment.recvHandle
  obtain ⟨r', result, rest, idle⟩ := receiving.loop_quiet segment.recvHandle calm
  rw [← smooth.first] at result
  have after := Listened.onread_of_returned result
  have added := emissions_append (later.take (ready later wire)) segment.recvHandle
    smooth.numbers smooth.messages
  rw [← smooth.first] at added
  have long : (later.take (ready later wire)).length = ready later wire :=
    length_take_of_le ready_le_length
  refine .smooth (done ++ later.take (ready later wire)) (later.drop (ready later wire)) ?_ ?_ ?_
    (quiet_add quiet calm)
  · simp
  · simp [long]
  rw [after]
  exact ⟨by rw [length_append, long, smooth.first], added.1, added.2, rest, idle⟩

theorem Smooth.onread (smooth : Smooth t (segment.pool ++ wire) done later)
    (quiet : ∀ i < done.length, throws i = false) :
    Run throws (done ++ later) wire (t.onread toString json throws segment) done.length
      (done.length + ready later wire) := by
  by_cases thrown : ∃ i, i < ready later wire ∧ throws (done.length + i) = true
  · -- the first message that throws
    obtain ⟨lt, throws_at⟩ := Nat.find_spec thrown
    have calm : ∀ j < Nat.find thrown, throws (done.length + j) = false := by
      intro j below
      have not := Nat.find_min thrown below
      exact Bool.eq_false_iff.mpr fun throws_j => not ⟨below.trans lt, throws_j⟩
    exact smooth.onread_thrown decodes quiet lt calm throws_at
  have calm : ∀ i < ready later wire, throws (done.length + i) = false := by
    intro i below
    exact Bool.eq_false_iff.mpr fun throws_i => thrown ⟨i, below, throws_i⟩
  exact smooth.onread_quiet decodes quiet calm

theorem Uncut.onread (uncut : Uncut t (segment.pool ++ wire) done later) :
    ¬((t.onread toString json throws segment).emitted.map (·.number)).Nodup := by
  have receiving : Receiving (t.receiver.read toString segment.pool segment.recvHandle)
    wire later :=
    uncut.receiving.read decodes segment.recvHandle
  have again := receiving.loop_head throws t.first segment.recvHandle
    (uncut.left.trans_le (ready_mono segment.pool later wire))
  have earlier := uncut.emitted
  rw [← uncut.first] at earlier
  intro nodup
  rw [Listened.onread_emitted, map_append] at nodup
  exact disjoint_of_nodup_append nodup earlier again

/-- Whatever throws, the calls so far are a run over the lines that are complete. -/
theorem run (throws : Nat → Bool) (lines : List (Line json)) (segments : List (Segment H))
    (wire : List UInt8) (cut : (pools segments).flatten ++ wire = utf8Encode (Line.stream lines)) :
    Run throws lines wire (Listened.new.onreads toString json throws segments)
      (complete lines (received segments.dropLast)) (complete lines (received segments)) := by
  induction segments using List.reverseRecOn generalizing wire with
  | nil =>
    have nothing : complete lines (received ([] : List (Segment H))) = 0 := by
      cases lines with
      | nil => rfl
      | cons line => exact if_neg (Nat.not_le_of_lt line.bytes_pos)
    refine .smooth [] lines rfl nothing ⟨rfl, rfl, rfl, ?_, rfl⟩ ?_
    · exact ⟨[], [], Line.stream lines, rfl, Awaits.new _, cut, rfl, fun _ => not_mem_nil⟩
    · omega
  | append_singleton segments segment ih =>
    have whole : (pools segments).flatten ++ (segment.pool ++ wire) =
        utf8Encode (Line.stream lines) := by
      rw [← cut]
      simp [pools]
    rw [Listened.onreads_snoc, dropLast_concat]
    have more : complete lines (received segments) ≤
        complete lines (received (segments ++ [segment])) := by
      apply complete_mono
      rw [received_snoc]
      exact Nat.le_add_right _ _
    rcases ih (segment.pool ++ wire) whole with ⟨done, later, rfl, all, smooth, quiet⟩ |
      ⟨done, later, rfl, uncut, i, -, lt, throws_at, -, -, -⟩ | ⟨twice, i, lt, le, throws_at⟩
    · have receiving := smooth.receiving.read decodes segment.recvHandle
      rw [all] at quiet ⊢
      rw [complete_received cut receiving.wire_le]
      exact smooth.onread decodes quiet
    · exact .repeated (uncut.onread decodes) i lt more throws_at
    refine .repeated ?_ i (lt.trans_le le) more throws_at
    intro nodup
    rw [Listened.onread_emitted, map_append] at nodup
    exact twice nodup.of_append_left

end

theorem Run.delivered {before : Nat} (run : Run throws lines wire t before
      (complete lines number)) :
    Delivered lines number t.emitted ↔ ∀ i < complete lines number, throws i = true →
      i + 1 = complete lines number ∧ before ≤ i := by
  rcases run with ⟨done, later, rfl, all, smooth, quiet⟩ |
    ⟨-, -, -, -, i, fresh, lt, throws_at, quiet, numbers, messages⟩ | ⟨twice, i, lt, le, throws_at⟩
  · constructor
    · intro _ i lt throws_at
      simp [quiet i lt] at throws_at
    intro _
    refine ⟨by rw [all, smooth.numbers], ?_⟩
    simp [all, smooth.messages]
  · constructor
    · intro delivered j below throws_j
      have length := congrArg List.length (numbers.symm.trans delivered.once)
      rw [length_range, length_range] at length
      have above : i ≤ j := by
        by_contra less
        simp [quiet j (by omega)] at throws_j
      omega
    intro only
    obtain ⟨last, -⟩ := only i lt throws_at
    exact ⟨by rw [numbers, last], by rw [messages, last]⟩
  constructor
  · intro delivered
    apply absurd _ twice
    rw [delivered.once]
    exact nodup_range
  intro only
  have late := (only i (lt.trans_le le) throws_at).2
  omega

/-! ## The theorem -/

/-- **Every complete message is emitted once, in order, if and only if no listener throws but that
of the last complete message, in the last call.** -/
theorem delivered_iff {json : JSON} {H : Type} {toString : ToString}
    (decodes : ∀ text, toString "utf8" (utf8Encode text) = utf16Encode text) (throws : Nat → Bool)
    (lines : List (Line json)) (segments : List (Segment H)) (wire : List UInt8)
    (cut : (pools segments).flatten ++ wire = utf8Encode (Line.stream lines)) :
    Delivered lines (received segments)
        (Listened.new.onreads toString json throws segments).emitted ↔
      ∀ i < complete lines (received segments), throws i = true →
        i + 1 = complete lines (received segments) ∧
          complete lines (received segments.dropLast) ≤ i :=
  (run decodes throws lines segments wire cut).delivered

/-! ## Two messages -/

/-- `null`, as it is written and parsed -/
def nullsJson : JSON where
  stringify _ := js "null"
  parse text := if text = js "null" then some .null else none

def nullLine : Line nullsJson where
  text := "null".toList
  value := .null
  plain := by decide
  parsed := by rfl

/-- One chunk -/
def bothLines : List (Segment Unit) := [⟨nullLine.bytes ++ nullLine.bytes, none⟩]

/-- The listener of the second message throws. -/
theorem delivered_of_last : Delivered [nullLine, nullLine] (received bothLines)
    (Listened.new.onreads utf8ToString nullsJson (fun i => i == 1) bothLines).emitted := by
  refine (delivered_iff utf8ToString_utf8Encode _ _ _ [] (by decide)).mpr ?_
  decide

/-- The listener of the first message throws; the second one is not emitted. -/
theorem not_delivered_of_first :
    ∃ (throws : Nat → Bool) (lines : List (Line nullsJson)) (segments : List (Segment Unit)),
      (pools segments).flatten = utf8Encode (Line.stream lines) ∧
        ¬Delivered lines (received segments)
          (Listened.new.onreads utf8ToString nullsJson throws segments).emitted := by
  refine ⟨fun i => i == 0, [nullLine, nullLine], bothLines, by decide, ?_⟩
  rw [(run utf8ToString_utf8Encode _ _ _ [] (by decide)).delivered]
  decide

end IoJs.ChildProcess
