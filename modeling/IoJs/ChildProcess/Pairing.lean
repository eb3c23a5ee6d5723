import IoJs.ChildProcess.Receiver

/-!
# Handles and their messages

A handle comes with some of the bytes of its message. `onread` gives a message that it completes the
handle of the same call. So a message that is read in more than one piece has its handle only if the
last piece is the one that the handle came with; otherwise it is dispatched without it, and the
handle is dropped (`paired_iff`).
-/

namespace IoJs.ChildProcess

open IoJs.Buffer IoJs.RegExp IoJs.Stream IoJs.StringDecoder List Option

variable {json : JSON} {H : Type} {toString : ToString}
variable {n i : Nat} {h : H} {r : Receiver H} {wire : List UInt8} {first second : Option Nat}

namespace Receiver

/-- The loop of `onread`: what `handleMessage` is called with. It gives nothing if `JSON.parse`
throws or if it is out of fuel. -/
def rounds (json : JSON) (recvHandle : Option H) :
    Nat → Receiver H → Option (List (Json × Option H) × Receiver H)
  | 0, _ => none
  | fuel + 1, r =>
    match r.next json recvHandle with
    | .message message handle r =>
      (rounds json recvHandle fuel r).map fun result => ((message, handle) :: result.1, result.2)
    | .done r => some ([], r)
    | .throws => none

def onread (toString : ToString) (json : JSON) (r : Receiver H) (pool : List UInt8)
    (recvHandle : Option H) : Option (List (Json × Option H) × Receiver H) :=
  let r := r.read toString pool recvHandle
  rounds json recvHandle (r.jsonBuffer.length + 1) r

end Receiver

/-- The arguments of a call of `onread` -/
structure Segment (H : Type) where
  pool : List UInt8
  recvHandle : Option H

/-- Call after call -/
def Receiver.onreads (toString : ToString) (json : JSON) (r : Receiver H) :
    List (Segment H) → Option (List (Json × Option H) × Receiver H)
  | [] => some ([], r)
  | segment :: segments => do
      let (log, r) ← r.onread toString json segment.pool segment.recvHandle
      let (later, r) ← Receiver.onreads toString json r segments
      some (log ++ later, r)

/-! ## The specification -/

/-- The `n`th byte is in the part with the index `k`. -/
def Holds (parts : List (List UInt8)) (k n : Nat) : Prop :=
  (parts.take k).flatten.length < n ∧ n ≤ (parts.take (k + 1)).flatten.length

/-- A message as it is written; with a handle it is a `NODE_HANDLE`. -/
structure Packet (json : JSON) (H : Type) extends Line json where
  handle : Option H
  wrapped : handle.isSome = true → value.cmd = some (js "NODE_HANDLE")

/-- The handle of a message -/
def handleOf (packets : List (Packet json H)) (i : Nat) : Option H := packets[i]?.bind (·.handle)

/-- The handle that a call has got -/
def handleIn (segments : List (Segment H)) (k : Nat) : Option H := segments[k]?.bind (·.recvHandle)

def messages (packets : List (Packet json H)) : List (List UInt8) := packets.map (·.toLine.bytes)

def pools (segments : List (Segment H)) : List (List UInt8) := segments.map (·.pool)

/-- The number of bytes up to the end of a message -/
def stop (packets : List (Packet json H)) (i : Nat) : Nat :=
  ((messages packets).take (i + 1)).flatten.length

/-- What the operating system promises: each handle comes once, and with bytes of its message. -/
structure Attached (packets : List (Packet json H)) (segments : List (Segment H)) : Prop where
  bytes : (pools segments).flatten = (messages packets).flatten
  arrives : ∀ i h, handleOf packets i = some h → ∃ k n, handleIn segments k = some h ∧
    Holds (pools segments) k n ∧ Holds (messages packets) i n
  sent : ∀ k h, handleIn segments k = some h → ∃ i, handleOf packets i = some h
  once : ∀ k k' h, handleIn segments k = some h → handleIn segments k' = some h → k = k'

/-- Each message is dispatched with its handle, and no handle is dropped. -/
structure Paired (packets : List (Packet json H)) (segments : List (Segment H))
    (log : List (Json × Option H)) : Prop where
  dispatched : ∀ (i : Nat) (packet : Packet json H) (h : H), packets[i]? = some packet →
    packet.handle = some h → log[i]? = some (packet.value, some h)
  kept : ∀ k h, handleIn segments k = some h → ∃ entry ∈ log, entry.2 = some h

/-- The handle of the call that gets the `n`th byte -/
def handleAt : List (Segment H) → Nat → Option H
  | [], _ => none
  | segment :: segments, n =>
    if n ≤ segment.pool.length then segment.recvHandle
    else handleAt segments (n - segment.pool.length)

/-- A line as it is dispatched by a call with a handle -/
def entry (line : Line json) (recvHandle : Option H) : Json × Option H :=
  (line.value, if line.value.cmd = some (js "NODE_HANDLE") then recvHandle else none)

/-- The lines with the handles of the calls that get their last bytes -/
def entries (segments : List (Segment H)) : Nat → List (Line json) → List (Json × Option H)
  | _, [] => []
  | start, line :: lines =>
    let stop := start + line.bytes.length
    entry line (handleAt segments stop) :: entries segments stop lines

/-! ## Positions -/

variable {segments : List (Segment H)}

theorem handleAt_append_left
    (le : n ≤ (pools segments).flatten.length) (more : List (Segment H)) (positive : 0 < n) :
    handleAt (segments ++ more) n = handleAt segments n := by
  induction segments generalizing n with
  | nil =>
    rw [pools, map_nil, flatten_nil, length_nil] at le
    omega
  | cons segment segments ih =>
    rw [pools, map_cons, flatten_cons, length_append] at le
    rw [cons_append, handleAt, handleAt]
    split_ifs with here
    · rfl
    · exact ih (by rw [pools]; omega) (by omega)

variable {segment : Segment H}

theorem handleAt_snoc (lt : (pools segments).flatten.length < n)
    (le : n ≤ (pools segments).flatten.length + segment.pool.length) :
    handleAt (segments ++ [segment]) n = segment.recvHandle := by
  induction segments generalizing n with
  | nil =>
    rw [pools, map_nil, flatten_nil, length_nil] at le
    rw [nil_append, handleAt, if_pos (by omega)]
  | cons first segments ih =>
    rw [pools, map_cons, flatten_cons, length_append] at lt le
    rw [cons_append, handleAt, if_neg (by omega)]
    exact ih (by rw [pools]; omega) (by rw [pools]; omega)

theorem handleAt_eq_some_iff (positive : 0 < n) :
    handleAt segments n = some h ↔ ∃ k, Holds (pools segments) k n ∧
    handleIn segments k = some h := by
  induction segments generalizing n with
  | nil => simp [handleAt, handleIn]
  | cons segment segments ih =>
    have zero : Holds (pools (segment :: segments)) 0 n ↔ n ≤ segment.pool.length := by
      simp [Holds, pools, positive]
    have succ : ∀ k, Holds (pools (segment :: segments)) (k + 1) n ↔
        segment.pool.length < n ∧ Holds (pools segments) k (n - segment.pool.length) := by
      intro k
      simp only [Holds, pools, map_cons, take_succ_cons, flatten_cons, length_append]
      omega
    rw [handleAt]
    constructor
    · intro eq
      split_ifs at eq with here
      · exact ⟨0, zero.mpr here, eq⟩
      obtain ⟨k, holds, found⟩ := (ih (by omega)).mp eq
      exact ⟨k + 1, (succ k).mpr ⟨by omega, holds⟩, found⟩
    rintro ⟨k, holds, found⟩
    cases k with
    | zero =>
      rw [if_pos (zero.mp holds)]
      exact found
    | succ k =>
      obtain ⟨lt, holds⟩ := (succ k).mp holds
      rw [if_neg (by omega)]
      exact (ih (by omega)).mpr ⟨k, holds, found⟩

variable {segments : List (Segment H)} {lines : List (Line json)} {start : Nat}

theorem Line.bytes_pos (line : Line json) : 0 < line.bytes.length := by
  rw [Line.bytes, Line.chars, utf8Encode_append, length_append]
  exact Nat.lt_add_left _ (by decide)

theorem entries_append (left right : List (Line json)) : entries segments start (left ++ right) =
    entries segments start left ++
      entries segments (start + (utf8Encode (Line.stream left)).length) right := by
  induction left generalizing start with
  | nil => rfl
  | cons line left ih =>
    have add : start + line.bytes.length + (utf8Encode (Line.stream left)).length =
        start + (utf8Encode (Line.stream (line :: left))).length := by
      rw [Line.stream_cons, utf8Encode_append, length_append, Line.bytes, Nat.add_assoc]
    rw [cons_append, entries, entries, ih, add, cons_append]

theorem entries_append_left (more : List (Segment H))
    (le : start + (utf8Encode (Line.stream lines)).length ≤ (pools segments).flatten.length) :
    entries (segments ++ more) start lines = entries segments start lines := by
  induction lines generalizing start with
  | nil => rfl
  | cons line lines ih =>
    rw [Line.stream_cons, utf8Encode_append, length_append, ← Line.bytes] at le
    have positive := line.bytes_pos
    rw [entries, entries, handleAt_append_left (by omega) more (by omega), ih (by omega)]

theorem entries_snoc (lt : ∀ line ∈ lines.head?,
      (pools segments).flatten.length < start + line.bytes.length)
    (le : start + (utf8Encode (Line.stream lines)).length ≤
      (pools segments).flatten.length + segment.pool.length) :
    entries (segments ++ [segment]) start lines =
      lines.map fun line => entry line segment.recvHandle := by
  induction lines generalizing start with
  | nil => rfl
  | cons line lines ih =>
    have lt := lt line rfl
    rw [Line.stream_cons, utf8Encode_append, length_append, ← Line.bytes] at le
    have later : ∀ line' ∈ lines.head?,
        (pools segments).flatten.length < start + line.bytes.length + line'.bytes.length :=
      fun line' _ => Nat.lt_add_right _ lt
    rw [entries, handleAt_snoc lt (by omega), ih later (by omega), map_cons]

/-! ## Runs -/

theorem length_next {r' : Receiver H} {recvHandle handle : Option H} {message : Json}
    (round : r.next json recvHandle = .message message handle r') :
    r'.jsonBuffer.length < r.jsonBuffer.length := by
  rw [Receiver.next] at round
  cases found : r.jsonBuffer.findIdx? (· = unit '\n') with
  | none =>
    rw [found] at round
    cases round
  | some i =>
    rw [found] at round
    dsimp only at round
    cases parsed : json.parse (r.jsonBuffer.take i) with
    | none =>
      rw [parsed] at round
      cases round
    | some =>
      rw [parsed] at round
      cases round
      have lt := (List.findIdx?_eq_some_iff_findIdx_eq.mp found).1
      rw [length_drop]
      omega

theorem Receiving.rounds (receiving : Receiving r wire lines)
    (recvHandle : Option H) {fuel : Nat} (enough : r.jsonBuffer.length < fuel) :
    ∃ now later r', lines = now ++ later ∧
      r.rounds json recvHandle fuel = some (now.map fun line => entry line recvHandle, r') ∧
      Receiving r' wire later ∧ r'.call = none := by
  induction fuel generalizing r lines with
  | zero => exact absurd enough (Nat.not_lt_zero _)
  | succ fuel ih =>
    rcases receiving.next recvHandle with ⟨line, later, r', rfl, round, rest, -⟩ |
      ⟨r', round, same, idle⟩
    · have less := length_next round
      obtain ⟨now, later', r'', rfl, result, rest', idle⟩ := ih rest (by omega)
      refine ⟨line :: now, later', r'', rfl, ?_, rest', idle⟩
      rw [Receiver.rounds, round]
      dsimp only
      rw [result]
      rfl
    refine ⟨[], lines, r', rfl, ?_, same, idle⟩
    rw [Receiver.rounds, round]
    rfl

theorem Receiving.wire_le (receiving : Receiving r wire lines) :
    wire.length ≤ (utf8Encode (Line.stream lines)).length := by
  obtain ⟨part, pending, rest, -, -, left, split, -⟩ := receiving.buffered
  rw [← split, utf8Encode_append, ← left, length_append, length_append]
  omega

theorem Receiving.lt_wire {line : Line json}
    {later : List (Line json)} (receiving : Receiving r wire (line :: later))
    (idle : r.call = none) :
    (utf8Encode (Line.stream later)).length < wire.length := by
  obtain ⟨part, pending, rest, -, awaits, left, split, plain⟩ := receiving.buffered
  rcases Line.exists_cons_of_plain (plain idle) split with ⟨none, -⟩ |
    ⟨line', later', tail, eq, -, rest_eq⟩
  · cases none
  obtain ⟨rfl, rfl⟩ := List.cons.inj eq
  have short : pending.length ≤ (utf8Encode tail).length := by
    rw [rest_eq] at awaits
    cases tail with
    | nil => exact Nat.le_of_lt_succ awaits.length_lt
    | cons =>
      have less := awaits.length_lt
      rw [utf8Encode_cons, length_append, String.length_utf8EncodeChar]
      omega
  have size := congrArg List.length left
  rw [rest_eq, utf8Encode_append, length_append, length_append, utf8Encode_cons,
    length_append] at size
  have one : (String.utf8EncodeChar '\n').length = 1 := by decide
  omega

theorem onreads_snoc (r : Receiver H) (segments : List (Segment H)) (segment : Segment H) :
    r.onreads toString json (segments ++ [segment]) =
      (r.onreads toString json segments).bind fun result =>
        (result.2.onread toString json segment.pool segment.recvHandle).map fun last =>
          (result.1 ++ last.1, last.2) := by
  induction segments generalizing r with
  | nil =>
    rw [nil_append, Receiver.onreads, Receiver.onreads]
    cases last : r.onread toString json segment.pool segment.recvHandle with
    | none => simp [last]
    | some => simp [Receiver.onreads, last]
  | cons first segments ih =>
    rw [cons_append, Receiver.onreads, Receiver.onreads]
    cases r.onread toString json first.pool first.recvHandle with
    | none => rfl
    | some result =>
      dsimp only [bind_eq_bind, bind_some]
      rw [ih]
      cases result.2.onreads toString json segments with
      | none => rfl
      | some later =>
        dsimp only [bind_some]
        cases later.2.onread toString json segment.pool segment.recvHandle with
        | none => rfl
        | some last => simp

theorem Receiving.all (lines : List (Line json)) :
    Receiving (.new : Receiver H) (utf8Encode (Line.stream lines)) lines := by
  induction lines using List.reverseRecOn with
  | nil => exact .new
  | append_singleton lines line ih =>
    rw [Line.stream_append, utf8Encode_append, Line.stream_cons, Line.stream_nil, append_nil]
    exact ih.append line

/-- **What calls dispatch**: the lines that they complete, each `NODE_HANDLE` with the handle of the
call that gets its last byte. -/
theorem onreads_eq (decodes : ∀ text, toString "utf8" (utf8Encode text) = utf16Encode text)
    (lines : List (Line json)) (segments : List (Segment H))
    (cut : (pools segments).flatten ++ wire = utf8Encode (Line.stream lines)) :
    ∃ done later r, lines = done ++ later ∧
      (.new : Receiver H).onreads toString json segments = some (entries segments 0 done, r) ∧
      Receiving r wire later ∧ r.call = none := by
  induction segments using List.reverseRecOn generalizing wire with
  | nil =>
    have all := Receiving.all (H := H) lines
    rw [← cut] at all
    exact ⟨[], lines, .new, rfl, rfl, all, rfl⟩
  | append_singleton segments segment ih =>
    have split : (pools (segments ++ [segment])).flatten =
        (pools segments).flatten ++ segment.pool := by simp [pools]
    rw [split, append_assoc] at cut
    obtain ⟨done, later, r, rfl, result, receiving, idle⟩ := ih cut
    have started := receiving.read decodes segment.recvHandle
    obtain ⟨now, later', r', rfl, last, receiving', idle'⟩ :=
      started.rounds segment.recvHandle (Nat.lt_succ_self _)
    refine ⟨done ++ now, later', r', (append_assoc _ _ _).symm, ?_, receiving', idle'⟩
    have size := congrArg List.length cut
    simp only [Line.stream_append, utf8Encode_append, length_append] at size
    have before := receiving.wire_le
    have after := receiving'.wire_le
    rw [Line.stream_append, utf8Encode_append, length_append, length_append] at before
    have old : entries (segments ++ [segment]) 0 done = entries segments 0 done :=
      entries_append_left [segment] (by omega)
    have new : entries (segments ++ [segment]) (0 + (utf8Encode (Line.stream done)).length) now =
        now.map fun line => entry line segment.recvHandle := by
      refine entries_snoc ?_ (by omega)
      intro line mem
      cases now with
      | nil => cases mem
      | cons first now =>
        cases mem
        have unread : (utf8Encode (Line.stream (now ++ later'))).length <
            (segment.pool ++ wire).length := receiving.lt_wire idle
        rw [length_append, Line.stream_append, utf8Encode_append, length_append] at unread
        rw [Line.stream_cons, utf8Encode_append, length_append, ← Line.bytes] at size
        omega
    rw [onreads_snoc, result, entries_append, old, new]
    dsimp only [bind_some]
    rw [Receiver.onread, last]
    rfl

/-! ## The theorem -/

theorem entries_get (packets : List (Packet json H)) (i : Nat) :
    (entries segments start (packets.map (·.toLine)))[i]? =
      packets[i]?.map fun packet =>
        entry packet.toLine (handleAt segments (start + stop packets i)) := by
  induction packets generalizing start i with
  | nil => rfl
  | cons packet packets ih =>
    cases i with
    | zero => simp [entries, stop, messages]
    | succ i =>
      have stop_succ : stop (packet :: packets) (i + 1) =
          packet.toLine.bytes.length + stop packets i := by
        simp [stop, messages]
      rw [map_cons, entries, List.getElem?_cons_succ, List.getElem?_cons_succ, ih, stop_succ,
        Nat.add_assoc]

theorem entries_values (lines : List (Line json)) :
    (entries segments start lines).map (·.1) = lines.map (·.value) := by
  induction lines generalizing start with
  | nil => rfl
  | cons line lines ih => rw [entries, map_cons, map_cons, ih, entry]

variable {packets : List (Packet json H)}

theorem stop_pos {packet : Packet json H}
    (here : packets[i]? = some packet) : 0 < stop packets i := by
  have split : packets.take (i + 1) = packets.take i ++ [packet] := by
    rw [take_add_one, here]
    rfl
  have positive := packet.toLine.bytes_pos
  rw [stop, messages, ← map_take, split, map_append, flatten_append, length_append]
  exact Nat.lt_add_left _ (by simpa using positive)

theorem flatten_messages (packets : List (Packet json H)) :
    (messages packets).flatten = utf8Encode (Line.stream (packets.map (·.toLine))) := by
  induction packets with
  | nil => rfl
  | cons packet packets ih =>
    rw [messages, map_cons, flatten_cons, map_cons, Line.stream_cons, utf8Encode_append, ← ih]
    rfl

theorem handleOf_eq_some_iff :
    handleOf packets i = some h ↔ ∃ packet, packets[i]? = some packet ∧ packet.handle = some h :=
  bind_eq_some_iff

/-- **A message has its handle if and only if the handle comes with the end of the message.** -/
theorem paired_iff {json : JSON} {H : Type} {toString : ToString}
    (decodes : ∀ text, toString "utf8" (utf8Encode text) = utf16Encode text)
    {packets : List (Packet json H)} {segments : List (Segment H)}
    (attached : Attached packets segments) :
    ∃ log r, Receiver.new.onreads toString json segments = some (log, r) ∧
      log.map (·.1) = packets.map (·.value) ∧
      (Paired packets segments log ↔ ∀ i k h, handleOf packets i = some h →
        handleIn segments k = some h → Holds (pools segments) k (stop packets i)) := by
  have bytes : (messages packets).flatten = utf8Encode (Line.stream (packets.map (·.toLine))) :=
    flatten_messages packets
  have cut : (pools segments).flatten ++ [] =
      utf8Encode (Line.stream (packets.map (·.toLine))) := by
    rw [append_nil, attached.bytes, bytes]
  obtain ⟨done, later, r, split, result, receiving, idle⟩ := onreads_eq decodes _ segments cut
  obtain rfl := receiving.eq_nil idle
  rw [append_nil] at split
  subst split
  refine ⟨_, r, result, by rw [entries_values, List.map_map]; rfl, ?_⟩
  -- the handle that a wrapped message is dispatched with
  have found : ∀ {i packet h}, packets[i]? = some packet → packet.handle = some h →
      (entries segments 0 (packets.map (·.toLine)))[i]? =
        some (packet.value, handleAt segments (stop packets i)) := by
    intro i packet h here has
    have wrapped := packet.wrapped (by rw [has]; rfl)
    rw [entries_get, here, map_some, entry, if_pos wrapped, Nat.zero_add]
  constructor
  · intro paired i k h has comes
    obtain ⟨packet, here, handle⟩ := handleOf_eq_some_iff.mp has
    have entry := paired.dispatched i packet h here handle
    rw [found here handle] at entry
    obtain ⟨-, at_stop⟩ := Prod.mk.inj (some.inj entry)
    obtain ⟨k', holds, comes'⟩ := (handleAt_eq_some_iff (stop_pos here)).mp at_stop
    rw [attached.once k k' h comes comes']
    exact holds
  intro ends
  have dispatched : ∀ (i : Nat) (packet : Packet json H) (h : H), packets[i]? = some packet →
      packet.handle = some h → (entries segments 0 (packets.map (·.toLine)))[i]? =
        some (packet.value, some h) := by
    intro i packet h here handle
    have has := handleOf_eq_some_iff.mpr ⟨packet, here, handle⟩
    obtain ⟨k, -, comes, -⟩ := attached.arrives i h has
    have at_stop := (handleAt_eq_some_iff (stop_pos here)).mpr ⟨k, ends i k h has comes, comes⟩
    rw [found here handle, at_stop]
  refine ⟨dispatched, ?_⟩
  intro k h comes
  obtain ⟨i, has⟩ := attached.sent k h comes
  obtain ⟨packet, here, handle⟩ := handleOf_eq_some_iff.mp has
  exact ⟨_, mem_of_getElem? (dispatched i packet h here handle), rfl⟩

/-! ## One message -/

/-- A message with a native handle, as `JSON.stringify` writes it -/
def exampleText : List Char :=
  "\x7b\"cmd\":\"NODE_HANDLE\",\"type\":\"net.Native\",\"msg\":null\x7d".toList

def exampleJson : JSON where
  stringify _ := utf16Encode exampleText
  parse text := if text = utf16Encode exampleText then some (nodeHandle .native .null []) else none

def examplePacket : Packet exampleJson Nat where
  text := exampleText
  value := nodeHandle .native .null []
  plain := by decide
  parsed := by
    dsimp only [exampleJson]
    rw [if_pos rfl]
  handle := some 7
  wrapped _ := cmd_nodeHandle .native .null []

/-- Cut somewhere inside of the text -/
def examplePieces (first second : Option Nat) : List (Segment Nat) :=
  [⟨examplePacket.toLine.bytes.take 20, first⟩, ⟨examplePacket.toLine.bytes.drop 20, second⟩]

theorem handleOf_example {h : Nat} (has : handleOf [examplePacket] i = some h) : i = 0 ∧ h = 7 := by
  cases i with
  | zero => exact ⟨rfl, (some.inj has).symm⟩
  | succ i => cases has

theorem handleIn_example {k h : Nat} (comes : handleIn (examplePieces first second) k = some h) :
    k = 0 ∧ first = some h ∨ k = 1 ∧ second = some h := by
  rcases k with - | - | k
  · exact .inl ⟨rfl, comes⟩
  · exact .inr ⟨rfl, comes⟩
  · cases comes

theorem attached_example (one : first = some 7 ∧ second = none ∨ first = none ∧ second = some 7) :
    Attached [examplePacket] (examplePieces first second) where
  bytes := by
    simp only [pools, examplePieces, messages, map_cons, map_nil, flatten_cons,
      flatten_nil, append_nil, take_append_drop]
  arrives i h has := by
    obtain ⟨rfl, rfl⟩ := handleOf_example has
    rcases one with ⟨rfl, rfl⟩ | ⟨rfl, rfl⟩
    · exact ⟨0, 1, rfl, ⟨by decide, by decide⟩, ⟨by decide, by decide⟩⟩
    · exact ⟨1, 21, rfl, ⟨by decide, by decide⟩, ⟨by decide, by decide⟩⟩
  sent k h comes := by
    have seven : h = 7 := by
      rcases handleIn_example comes with ⟨-, eq⟩ | ⟨-, eq⟩
      · rcases one with ⟨rfl, -⟩ | ⟨rfl, -⟩
        · exact (some.inj eq).symm
        · cases eq
      rcases one with ⟨-, rfl⟩ | ⟨-, rfl⟩
      · cases eq
      · exact (some.inj eq).symm
    exact ⟨0, by rw [seven]; rfl⟩
  once k k' h comes comes' := by
    rcases one with ⟨rfl, rfl⟩ | ⟨rfl, rfl⟩
    · rcases handleIn_example comes with ⟨rfl, -⟩ | ⟨-, none⟩
      · rcases handleIn_example comes' with ⟨rfl, -⟩ | ⟨-, none⟩
        · rfl
        · cases none
      · cases none
    rcases handleIn_example comes with ⟨-, none⟩ | ⟨rfl, -⟩
    · cases none
    rcases handleIn_example comes' with ⟨-, none⟩ | ⟨rfl, -⟩
    · cases none
    · rfl

/-- The handle comes with the last piece. -/
theorem paired_of_last :
    ∃ log r, Receiver.new.onreads utf8ToString exampleJson (examplePieces none (some 7)) =
        some (log, r) ∧
      Paired [examplePacket] (examplePieces none (some 7)) log := by
  obtain ⟨log, r, result, -, paired⟩ :=
    paired_iff utf8ToString_utf8Encode (attached_example (.inr ⟨rfl, rfl⟩))
  refine ⟨log, r, result, paired.mpr ?_⟩
  intro i k h has comes
  obtain ⟨rfl, rfl⟩ := handleOf_example has
  rcases handleIn_example comes with ⟨-, none⟩ | ⟨rfl, -⟩
  · cases none
  · exact ⟨by decide, by decide⟩

/-- The handle comes with the first piece; the message is dispatched without it. -/
theorem not_paired_of_first :
    ∃ (packets : List (Packet exampleJson Nat)) (segments : List (Segment Nat)),
      Attached packets segments ∧
      ∀ log r, Receiver.new.onreads utf8ToString exampleJson segments = some (log, r) →
        ¬Paired packets segments log := by
  refine ⟨[examplePacket], examplePieces (some 7) none, attached_example (.inl ⟨rfl, rfl⟩), ?_⟩
  intro log r result paired
  have cut : (pools (examplePieces (some 7) none)).flatten ++ [] =
      utf8Encode (Line.stream [examplePacket.toLine]) := by
    rfl
  obtain ⟨done, later, r', split, result', receiving, idle⟩ :=
    onreads_eq utf8ToString_utf8Encode _ (examplePieces (some 7) none) cut
  obtain rfl := receiving.eq_nil idle
  rw [append_nil] at split
  subst split
  obtain ⟨rfl, -⟩ := Prod.mk.inj (some.inj (result.symm.trans result'))
  have entry := paired.dispatched 0 examplePacket 7 rfl rfl
  have without : (entries (examplePieces (some 7) none) 0 [examplePacket.toLine])[0]? =
      some (examplePacket.value, none) := by rfl
  cases entry

end IoJs.ChildProcess
