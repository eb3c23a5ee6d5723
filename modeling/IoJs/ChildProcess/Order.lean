import IoJs.ChildProcess.Channel

/-!
# The order of messages

The lines that a process has written and the other one has not taken from its buffer are described
by `Receiving`. What they mean, the messages that wait in the queue and the messages that have been
read are together the messages that were sent (`Between.order`). A handle that is not acknowledged
is in one of the lines, or its acknowledgement is in a line that goes back, and there is one exactly
while there is a queue (`Between.outstanding`).
-/

namespace IoJs.ChildProcess

open IoJs.Buffer IoJs.RegExp IoJs.Stream IoJs.StringDecoder IoJs.Library List Option
open Function (update_of_ne update_self)
open Function (update)

/-- What a message is where it arrives -/
def JSON.arrived (json : JSON) (message : Json) : Json := (json.arrives message).getD .null

/-- A message of a user: it can be sent as JSON, alone and with a handle. -/
structure JSON.Sendable (json : JSON) (message : Json) : Prop where
  user : isInternal message = false
  carries : json.Carries message (json.arrived message)
  arriving : isInternal (json.arrived message) = false
  wrapped : ∀ kind handle, ∃ value,
    json.Carries (nodeHandle kind message (additions kind handle)) value ∧
      value.cmd = some (js "NODE_HANDLE") ∧ value.get (js "msg") = some (json.arrived message) ∧
      value.get (js "type") = some (.string kind.type)

/-- The messages that are read with a value from the channel -/
def payload (value : Json) : List Json :=
  if value.cmd = some (js "NODE_HANDLE_ACK") then []
  else if value.cmd = some (js "NODE_HANDLE") then (value.get (js "msg")).toList
  else [value]

variable {json : JSON} {kind : Nat → Option Kind} {toString : ToString}

/-- The messages that are read with some lines -/
def payloads (lines : List (Line json)) : List Json := lines.flatMap fun line => payload line.value

/-- How many lines have a command -/
def commands (cmd : JSString) (lines : List (Line json)) : Nat :=
  lines.countP fun line => line.value.cmd = some cmd

/-- How many lines have a handle -/
def handles (lines : List (Line json)) : Nat := commands (js "NODE_HANDLE") lines

/-- How many lines acknowledge one -/
def acks (lines : List (Line json)) : Nat := commands (js "NODE_HANDLE_ACK") lines

theorem commands_cons (cmd : JSString) (line : Line json) (lines : List (Line json)) :
    commands cmd (line :: lines) = (if line.value.cmd = some cmd then 1 else 0) +
      commands cmd lines := by
  rw [commands, countP_cons, commands, Nat.add_comm]
  congr 1
  simp

theorem commands_singleton (cmd : JSString) (line : Line json) :
    commands cmd [line] = if line.value.cmd = some cmd then 1 else 0 := commands_cons cmd line []

theorem commands_append (cmd : JSString) (left right : List (Line json)) :
    commands cmd (left ++ right) = commands cmd left + commands cmd right := countP_append

section

variable (left right : List (Line json))

theorem payloads_append :
    payloads (left ++ right) = payloads left ++ payloads right := flatMap_append

theorem handles_append :
    handles (left ++ right) = handles left + handles right := commands_append _ left right

theorem acks_append : acks (left ++ right) = acks left + acks right := commands_append _ left right

end

/-- Each value on a channel is one of these. -/
def Proper (value : Json) : Prop :=
  value.cmd = some (js "NODE_HANDLE") ∧ (Kind.find value).isSome = true ∨
    value.cmd = some (js "NODE_HANDLE_ACK") ∨ isInternal value = false

namespace Target

/-- The messages in the queue, as they will arrive -/
def waiting (json : JSON) (t : Target) : List Json :=
  (t.handleQueue.getD []).map fun args => json.arrived args.message

/-- Is a handle not acknowledged? -/
def outstanding (t : Target) : Nat := if t.handleQueue.isSome then 1 else 0

/-- What is in the queue can be sent. -/
def Ready (json : JSON) (kind : Nat → Option Kind) (queue : List Queued) : Prop :=
  ∀ args ∈ queue, json.Sendable args.message ∧
    args.handle.all (fun handle => (kind handle).isSome) = true

end Target

open Target

/-! ## One message -/

theorem bytes_eq (message : Json) :
    json.bytes message = utf8Encode (json.text message ++ ['\n']) := by
  rw [JSON.bytes, utf8Write_append_of_head, utf8Encode_append, JSON.text]
  · rfl
  intro unit head
  cases head
  rfl

/-- The line of a message -/
def JSON.Carries.line {message value : Json} (carries : json.Carries message value) : Line json :=
  { text := json.text message, value, plain := carries.plain, parsed := carries.arrives }

variable {message value : Json}

theorem bytes_line (carries : json.Carries message value) :
    json.bytes message = utf8Encode (Line.stream [carries.line]) := by
  rw [bytes_eq, Line.stream_cons, Line.stream_nil, append_nil]
  rfl

theorem find_type (value : Json) (kind : Kind)
    (type : value.get (js "type") = some (.string kind.type)) : Kind.find value = some kind := by
  rw [Kind.find, type]
  cases kind with
  | socket => rfl
  | server | native | dgramSocket | dgramNative => decide

theorem payload_user (user : isInternal value = false) : payload value = [value] := by
  obtain ⟨noHandle, noAck⟩ := cmd_ne_of_not_internal user
  simp [payload, noAck, noHandle]

/-- **What a call of `_send` does to what is sent and waits.** -/
structure Sends (json : JSON) (kind : Nat → Option Kind) (t : Target) (messages : List Json)
    (t' : Target) (lines : List (Line json)) : Prop where
  receiver : t'.receiver = t.receiver
  sent : t'.sent = t.sent
  got : t'.got = t.got
  acknowledged : t'.acknowledged = t.acknowledged
  wrapped : t'.wrapped = t.wrapped + handles lines
  order : payloads lines ++ t'.waiting json = t.waiting json ++ messages.map json.arrived
  outstanding : handles lines + t.outstanding = t'.outstanding
  acks : acks lines = 0
  proper : ∀ line ∈ lines, Proper line.value
  ready : ∀ queue ∈ t'.handleQueue, Ready json kind queue

namespace Sends

variable {t t' t'' : Target} {messages messages' : List Json} {lines lines' : List (Line json)}

theorem refl (ready : ∀ queue ∈ t.handleQueue, Ready json kind queue) :
    Sends json kind t [] t ([] : List (Line json)) where
  receiver := rfl
  sent := rfl
  got := rfl
  acknowledged := rfl
  wrapped := rfl
  order := (append_nil _).symm
  outstanding := Nat.zero_add _
  acks := rfl
  proper _ mem := absurd mem not_mem_nil
  ready

theorem trans (first : Sends json kind t messages t' lines)
    (second : Sends json kind t' messages' t'' lines') :
    Sends json kind t (messages ++ messages') t'' (lines ++ lines') where
  receiver := second.receiver.trans first.receiver
  sent := second.sent.trans first.sent
  got := second.got.trans first.got
  acknowledged := second.acknowledged.trans first.acknowledged
  wrapped := by rw [second.wrapped, first.wrapped, handles_append, Nat.add_assoc]
  order := by
    rw [payloads_append, append_assoc, second.order, ← append_assoc, first.order,
      append_assoc, map_append]
  outstanding := by
    rw [← second.outstanding, ← first.outstanding, handles_append]
    omega
  acks := by rw [acks_append, first.acks, second.acks]
  proper := by
    intro line mem
    rcases mem_append.mp mem with mem | mem
    · exact first.proper line mem
    · exact second.proper line mem
  ready := second.ready

end Sends

variable {t : Target}

theorem Target.waiting_none (idle : t.handleQueue = none) : t.waiting json = [] := by
  rw [waiting, idle]
  rfl

variable {queue : List Queued}

theorem sends_push (args : Queued) (busy : t.handleQueue = some queue)
    (ready : Ready json kind queue) (sendable : json.Sendable args.message)
    (sends : args.handle.all (fun handle => (kind handle).isSome) = true) :
    Sends json kind t [args.message] { t with handleQueue := some (queue ++ [args]) }
      ([] : List (Line json)) where
  receiver := rfl
  sent := rfl
  got := rfl
  acknowledged := rfl
  wrapped := rfl
  order := by
    rw [waiting, waiting, busy]
    exact map_append
  outstanding := by
    rw [outstanding, outstanding, busy]
    rfl
  acks := rfl
  proper _ mem := absurd mem not_mem_nil
  ready := by
    intro queue' eq args' mem
    cases eq
    rcases mem_append.mp mem with mem | mem
    · exact ready args' mem
    · grind

theorem sends_plain (idle : t.handleQueue = none)
    (sendable : json.Sendable message) (handles : Nat → Handle) :
    Sends json kind t [message] { t with handles } [sendable.carries.line] := by
  have value : sendable.carries.line.value = json.arrived message := rfl
  obtain ⟨noHandle, noAck⟩ := cmd_ne_of_not_internal sendable.arriving
  have noHandles : ChildProcess.handles [sendable.carries.line] = 0 := by
    rw [ChildProcess.handles, commands_singleton, value, if_neg noHandle]
  have none : ({ t with handles } : Target).waiting json = [] := Target.waiting_none idle
  refine ⟨rfl, rfl, rfl, rfl, by rw [noHandles]; rfl, ?_, by rw [noHandles, Nat.zero_add]; rfl,
    ?_, ?_, ?_⟩
  · rw [none, Target.waiting_none idle, payloads, flatMap_singleton, append_nil]
    exact payload_user sendable.arriving
  · rw [acks, commands_singleton, value, if_neg noAck]
  · intro line mem
    obtain rfl := mem_singleton.mp mem
    exact .inr (.inr sendable.arriving)
  intro queue eq
  simp [idle] at eq

theorem sends_wrapped (idle : t.handleQueue = none) {kind' : Kind}
    {object : Handle} (handles : Nat → Handle)
    (carries : json.Carries (nodeHandle kind' message (additions kind' object)) value)
    (cmd : value.cmd = some (js "NODE_HANDLE"))
    (msg : value.get (js "msg") = some (json.arrived message))
    (type : value.get (js "type") = some (.string kind'.type)) :
    Sends json kind t [message] { t with handles, handleQueue := some [], wrapped := t.wrapped + 1 }
      [carries.line] := by
  have different : (some (js "NODE_HANDLE")) ≠ some (js "NODE_HANDLE_ACK") := by decide
  have here : carries.line.value.cmd = some (js "NODE_HANDLE") := cmd
  have one : ChildProcess.handles [carries.line] = 1 := by
    rw [ChildProcess.handles, commands_singleton, if_pos here]
  refine ⟨rfl, rfl, rfl, rfl, by rw [one], ?_, ?_, ?_, ?_, ?_⟩
  · rw [Target.waiting_none idle, payloads, flatMap_singleton, payload, here, if_neg different,
      if_pos rfl]
    change (value.get (js "msg")).toList ++ [] = _
    rw [msg]
    rfl
  · rw [one, outstanding, idle]
    rfl
  · rw [acks, commands_singleton, here, if_neg different]
  · intro line mem
    obtain rfl := mem_singleton.mp mem
    refine .inl ⟨cmd, ?_⟩
    change (Kind.find value).isSome = true
    rw [find_type value kind' type]
    rfl
  intro queue eq args mem
  cases eq
  exact absurd mem not_mem_nil

theorem exists_sends {handle : Option Nat}
    (ready : ∀ queue ∈ t.handleQueue, Ready json kind queue) (sendable : json.Sendable message)
    (sends : handle.all (fun handle => (kind handle).isSome) = true) :
    ∃ lines : List (Line json),
      (t._send json kind message handle).2 = utf8Encode (Line.stream lines) ∧
      Sends json kind t [message] (t._send json kind message handle).1 lines := by
  cases handle with
  | none =>
    cases busy : t.handleQueue with
    | none =>
      refine ⟨[sendable.carries.line], ?_, ?_⟩
      · rw [_send, busy]
        exact bytes_line sendable.carries
      rw [_send, busy]
      exact sends_plain busy sendable t.handles
    | some queue =>
      have noAck := (cmd_ne_of_not_internal sendable.user).2
      refine ⟨[], ?_, ?_⟩
      · simp [_send, busy, noAck]
      rw [_send, busy]
      dsimp only
      rw [if_neg noAck]
      exact sends_push { message, handle := none } busy (ready queue busy) sendable rfl
  | some handle =>
    obtain ⟨kind', known⟩ := isSome_iff_exists.mp sends
    cases busy : t.handleQueue with
    | some queue =>
      refine ⟨[], ?_, ?_⟩
      · simp [_send, known, busy]
      rw [_send, known, busy]
      exact sends_push { message, handle := some handle } busy (ready queue busy) sendable sends
    | none =>
      by_cases native : (t.handles handle).native.isSome = true
      · obtain ⟨value, carries, cmd, msg, type⟩ := sendable.wrapped kind' (t.handles handle)
        refine ⟨[carries.line], ?_, ?_⟩
        · rw [_send, known, busy]
          simpa [native] using bytes_line carries
        rw [_send, known, busy]
        dsimp only
        rw [if_pos native]
        exact sends_wrapped busy _ carries cmd msg type
      refine ⟨[sendable.carries.line], ?_, ?_⟩
      · rw [_send, known, busy]
        simpa [native] using bytes_line sendable.carries
      rw [_send, known, busy]
      dsimp only
      rw [if_neg native]
      have plain : Sends json kind t _ _ _ := sends_plain busy sendable
        (update t.handles handle (given kind' (t.handles handle)))
      rw [busy] at plain
      exact plain

theorem exists_replay
    (ready : ∀ queue ∈ t.handleQueue, Ready json kind queue) (all : Ready json kind queue) :
    ∃ lines : List (Line json), (t.replay json kind queue).2 = utf8Encode (Line.stream lines) ∧
      Sends json kind t (queue.map (·.message)) (t.replay json kind queue).1 lines := by
  induction queue generalizing t with
  | nil => exact ⟨[], rfl, .refl ready⟩
  | cons args queue ih =>
    obtain ⟨⟨sendable, sends⟩, all⟩ := forall_mem_cons.mp all
    obtain ⟨lines, bytes, first⟩ := exists_sends ready sendable sends
    obtain ⟨lines', bytes', rest⟩ := ih first.ready all
    refine ⟨lines ++ lines', ?_, first.trans rest⟩
    rw [replay, Line.stream_append, utf8Encode_append, ← bytes, ← bytes']

/-! ## What a target does -/

/-- **What a target does** when it takes some lines: the history, and the lines that it writes. -/
structure Moves (json : JSON) (kind : Nat → Option Kind) (t : Target) (took : List (Line json))
    (messages : List Json) (t' : Target) (lines : List (Line json)) : Prop where
  sent : t'.sent = t.sent ++ messages
  got : t'.got = t.got ++ payloads took
  order : payloads lines ++ t'.waiting json = t.waiting json ++ messages.map json.arrived
  outstanding : handles lines + t.outstanding = t'.outstanding + acks took
  acks : acks lines = handles took
  wrapped : t'.wrapped = t.wrapped + handles lines
  acknowledged : t'.acknowledged = t.acknowledged + ChildProcess.acks took
  proper : ∀ line ∈ lines, Proper line.value
  ready : ∀ queue ∈ t'.handleQueue, Ready json kind queue

variable {t' : Target}

theorem Moves.refl (sent : t'.sent = t.sent) (got : t'.got = t.got)
    (handleQueue : t'.handleQueue = t.handleQueue) (wrapped : t'.wrapped = t.wrapped)
    (acknowledged : t'.acknowledged = t.acknowledged)
    (ready : ∀ queue ∈ t.handleQueue, Ready json kind queue) :
    Moves json kind t [] [] t' ([] : List (Line json)) where
  sent := by rw [sent, append_nil]
  got := by
    rw [got]
    exact (append_nil _).symm
  order := by
    rw [waiting, waiting, handleQueue]
    exact (append_nil _).symm
  outstanding := by
    rw [Target.outstanding, Target.outstanding, handleQueue]
    exact Nat.add_comm _ _
  acks := rfl
  wrapped := wrapped
  acknowledged := acknowledged
  proper _ mem := absurd mem not_mem_nil
  ready := by rwa [handleQueue]

theorem exists_moves_send (handle : Option Nat)
    (ready : ∀ queue ∈ t.handleQueue, Ready json kind queue) (sendable : json.Sendable message) :
    ∃ (lines : List (Line json)) (messages : List Json),
      (t.send json kind message handle).2 = utf8Encode (Line.stream lines) ∧
      (t.send json kind message handle).1.receiver = t.receiver ∧
      Moves json kind t [] messages (t.send json kind message handle).1 lines := by
  by_cases sends : handle.all (fun handle => (kind handle).isSome) = true
  · obtain ⟨lines, bytes, effect⟩ := exists_sends ready sendable sends
    refine ⟨lines, [message], ?_, ?_, ?_⟩
    · simpa [send, sends] using bytes
    · simpa [send, sends] using effect.receiver
    rw [send, if_pos sends]
    exact
      { sent := congrArg (· ++ [message]) effect.sent
        got := effect.got.trans (append_nil _).symm
        order := effect.order
        outstanding := effect.outstanding
        acks := effect.acks
        wrapped := effect.wrapped
        acknowledged := effect.acknowledged
        proper := effect.proper
        ready := effect.ready }
  cases handle with
  | none => exact absurd rfl sends
  | some handle =>
    have unknown : kind handle = none := by simpa using sends
    have same : t.send json kind message (some handle) = (t, []) := by
      rw [send, if_neg sends, _send, unknown]
    rw [same]
    exact ⟨[], [], rfl, rfl, .refl rfl rfl rfl rfl rfl ready⟩

variable {line : Line json}

theorem moves_user (user : isInternal line.value = false)
    (ready : ∀ queue ∈ t.handleQueue, Ready json kind queue) :
    Moves json kind t [line] [] { t with got := t.got ++ [line.value] } [] := by
  obtain ⟨noHandle, noAck⟩ := cmd_ne_of_not_internal user
  have noHandles : handles [line] = 0 := by rw [handles, commands_singleton, if_neg noHandle]
  have noAcks : acks [line] = 0 := by rw [acks, commands_singleton, if_neg noAck]
  refine ⟨(append_nil _).symm, ?_, (append_nil _).symm, ?_, noHandles.symm, rfl, ?_, ?_, ready⟩
  · simp [payloads, payload_user user]
  · rw [noAcks]
    exact Nat.zero_add _
  · rw [noAcks]
    rfl
  · simp

theorem payload_handle (cmd : value.cmd = some (js "NODE_HANDLE")) :
    payload value = (value.get (js "msg")).toList := by
  have different : (some (js "NODE_HANDLE")) ≠ some (js "NODE_HANDLE_ACK") := by decide
  rw [payload, cmd, if_neg different, if_pos rfl]

theorem moves_handle (cmd : line.value.cmd = some (js "NODE_HANDLE"))
    (carries : json.Carries nodeHandleAck nodeHandleAck)
    (ready : ∀ queue ∈ t.handleQueue, Ready json kind queue) :
    Moves json kind t [line] []
      { t with got := t.got ++ (line.value.get (js "msg")).toList } [carries.line] := by
  have different : (some (js "NODE_HANDLE")) ≠ some (js "NODE_HANDLE_ACK") := by decide
  have ack : carries.line.value.cmd = some (js "NODE_HANDLE_ACK") := rfl
  have one : handles [line] = 1 := by rw [handles, commands_singleton, if_pos cmd]
  have noAcks : acks [line] = 0 := by rw [acks, commands_singleton, cmd, if_neg different]
  have none : handles [carries.line] = 0 := by
    rw [handles, commands_singleton, ack, if_neg different.symm]
  refine ⟨(append_nil _).symm, ?_, ?_, ?_, ?_, ?_, ?_, ?_, ready⟩
  · simp [payloads, payload_handle cmd]
  · rw [payloads, flatMap_singleton, payload, ack, if_pos rfl]
    exact (append_nil _).symm
  · rw [none, noAcks]
    exact Nat.zero_add _
  · rw [acks, commands_singleton, ack, if_pos rfl, one]
  · rw [none]
    rfl
  · rw [noAcks]
    rfl
  intro line' mem
  obtain rfl := mem_singleton.mp mem
  exact .inr (.inl ack)

theorem exists_moves_ack
    (cmd : line.value.cmd = some (js "NODE_HANDLE_ACK")) (busy : t.handleQueue = some queue)
    (ready : Ready json kind queue) :
    ∃ lines : List (Line json),
      (t.acknowledge.replay json kind queue).2 = utf8Encode (Line.stream lines) ∧
      (t.acknowledge.replay json kind queue).1.receiver = t.receiver ∧
      Moves json kind t [line] [] (t.acknowledge.replay json kind queue).1 lines := by
  have different : (some (js "NODE_HANDLE_ACK")) ≠ some (js "NODE_HANDLE") := by decide
  have none : handles [line] = 0 := by rw [handles, commands_singleton, cmd, if_neg different]
  have one : acks [line] = 1 := by rw [acks, commands_singleton, if_pos cmd]
  have idle : t.acknowledge.handleQueue = Option.none := rfl
  have waits : t.waiting json = (queue.map (·.message)).map json.arrived := by simp [waiting, busy]
  obtain ⟨lines, bytes, effect⟩ := exists_replay (t := t.acknowledge)
    (by rw [idle]; exact nofun) ready
  refine ⟨lines, bytes, effect.receiver, ?_⟩
  exact
    { sent := effect.sent.trans (append_nil _).symm
      got := by
        rw [payloads, flatMap_singleton, payload, if_pos cmd, append_nil]
        exact effect.got
      order := by simp [effect.order, Target.waiting_none idle, waits]
      outstanding := by
        rw [one, ← effect.outstanding, Target.outstanding, Target.outstanding, busy, idle]
        rfl
      acks := by rw [effect.acks, none]
      wrapped := effect.wrapped
      acknowledged := by
        rw [effect.acknowledged, one]
        rfl
      proper := effect.proper
      ready := effect.ready }

variable {lines : List (Line json)}

theorem Moves.of_receiver {receiver : Receiver Nat} {took : List (Line json)}
    {messages : List Json} (moves : Moves json kind { t with receiver } took messages t' lines) :
    Moves json kind t took messages t' lines :=
  { sent := moves.sent
    got := moves.got
    order := moves.order
    outstanding := moves.outstanding
    acks := moves.acks
    wrapped := moves.wrapped
    acknowledged := moves.acknowledged
    proper := moves.proper
    ready := moves.ready }

theorem exists_moves_next (proper : Proper line.value)
    (carries : json.Carries nodeHandleAck nodeHandleAck)
    (answered : line.value.cmd = some (js "NODE_HANDLE_ACK") → t.handleQueue.isSome = true)
    (ready : ∀ queue ∈ t.handleQueue, Ready json kind queue) :
    ∃ (result : Target × List UInt8) (lines : List (Line json)),
      t.handleMessage json kind line.value = some result ∧
      result.2 = utf8Encode (Line.stream lines) ∧ result.1.receiver = t.receiver ∧
      Moves json kind t [line] [] result.1 lines := by
  rcases proper with ⟨cmd, known⟩ | ack | user
  · have inside : isInternal line.value = true := by
      rw [isInternal, cmd]
      decide
    obtain ⟨type, known⟩ := isSome_iff_exists.mp known
    have written : t._send json kind nodeHandleAck none = (t, json.bytes nodeHandleAck) := by
      rw [_send]
      cases t.handleQueue with
      | none => rfl
      | some => exact if_pos cmd_nodeHandleAck
    refine ⟨({ t with got := t.got ++ (line.value.get (js "msg")).toList },
      json.bytes nodeHandleAck),
      [carries.line], ?_, bytes_line carries, rfl, moves_handle cmd carries ready⟩
    rw [handleMessage, if_pos inside, internalMessage, cmd, if_neg (by decide),
      if_neg (fun other => other rfl), written, known]
  · have inside : isInternal line.value = true := by
      rw [isInternal, ack]
      decide
    obtain ⟨queue, busy⟩ := isSome_iff_exists.mp (answered ack)
    obtain ⟨lines, bytes, receiver, moves⟩ := exists_moves_ack ack busy (ready queue busy)
    refine ⟨_, lines, ?_, bytes, receiver, moves⟩
    rw [handleMessage, if_pos inside, internalMessage, if_pos ack, busy]
  refine ⟨({ t with got := t.got ++ [line.value] }, []), [], ?_, rfl, rfl, moves_user user ready⟩
  rw [handleMessage, user]
  rfl

/-! ## The invariant -/

theorem Side.peer_peer (side : Side) : side.peer.peer = side := by cases side <;> rfl

theorem Side.peer_ne (side : Side) : side.peer ≠ side := by cases side <;> decide

theorem Side.eq_or_eq_peer (side other : Side) : other = side ∨ other = side.peer := by
  cases side <;> cases other <;> decide

/-- The lines of each side that the other one has not taken, and how all is connected -/
structure Between (json : JSON) (kind : Side → Nat → Option Kind) (s : State)
    (lines : Side → List (Line json)) : Prop where
  receiving : ∀ side, Receiving (s.target side.peer).receiver (s.wire side) (lines side)
  order : ∀ side, (s.target side).sent.map json.arrived =
    (s.target side.peer).got ++ payloads (lines side) ++ (s.target side).waiting json
  outstanding : ∀ side, handles (lines side) + acks (lines side.peer) = (s.target side).outstanding
  wrapped : ∀ side, (s.target side).wrapped =
    (s.target side).acknowledged + (s.target side).outstanding
  proper : ∀ side, ∀ line ∈ lines side, Proper line.value
  ready : ∀ side, ∀ queue ∈ (s.target side).handleQueue, Ready json (kind side) queue
  sound : s.failed = false

theorem Receiving.appends {H : Type} {r : Receiver H} {wire : List UInt8}
    (receiving : Receiving r wire lines) (more : List (Line json)) :
    Receiving r (wire ++ utf8Encode (Line.stream more)) (lines ++ more) := by
  induction more generalizing wire lines with
  | nil => simpa [Line.stream_nil, utf8Encode_nil] using receiving
  | cons line more ih =>
    have next := ih (receiving.append line)
    rw [append_assoc, append_assoc] at next
    rw [Line.stream_cons, utf8Encode_append]
    exact next

namespace Between

variable {kind : Side → Nat → Option Kind} {s : State} {lines : Side → List (Line json)}
variable {side : Side}

section

variable (between : Between json kind s lines)
include between

/-- What a side answers with is written behind its lines, and what it has taken is off them. -/
theorem after {took rest : List (Line json)}
    (split : lines side.peer = took ++ rest) {result : Target × List UInt8} {messages : List Json}
    {new : List (Line json)} (bytes : result.2 = utf8Encode (Line.stream new))
    (receiving : Receiving result.1.receiver (s.wire side.peer) rest)
    (moves : Moves json (kind side) (s.target side) took messages result.1 new) :
    Between json kind (s.after side result)
      (update (update lines side.peer rest) side (lines side ++ new)) := by
  have ne := side.peer_ne
  have target : (s.after side result).target side = result.1 := update_self side _ _
  have target' : (s.after side result).target side.peer = s.target side.peer := update_of_ne ne _ _
  have wire : (s.after side result).wire side = s.wire side ++ result.2 := update_self side _ _
  have wire' : (s.after side result).wire side.peer = s.wire side.peer := update_of_ne ne _ _
  have here : update (update lines side.peer rest) side (lines side ++ new) side =
      lines side ++ new := update_self side _ _
  have there : update (update lines side.peer rest) side (lines side ++ new)
      side.peer = rest := by
    rw [update_of_ne ne, update_self]
  have received := between.receiving side
  have order := between.order side
  have order' := between.order side.peer
  have outstanding := between.outstanding side
  have outstanding' := between.outstanding side.peer
  have wrapped := between.wrapped side
  have proper := between.proper side.peer
  have effect := moves.outstanding
  have written := moves.wrapped
  have acknowledged := moves.acknowledged
  have answers := moves.acks
  rw [Side.peer_peer] at order' outstanding'
  rw [split, acks_append] at outstanding
  rw [split, handles_append] at outstanding'
  refine ⟨?_, ?_, ?_, ?_, ?_, ?_, between.sound⟩
  all_goals
    intro other
    rcases side.eq_or_eq_peer other with rfl | rfl
  · rw [target', wire, here, bytes]
    exact received.appends new
  · rw [Side.peer_peer, target, wire', there]
    exact receiving
  · simp [target, target', moves.sent, order, payloads_append, moves.order]
  · rw [Side.peer_peer, target, target', there, order', split, moves.got, payloads_append]
    simp
  · rw [target, here, there, handles_append]
    omega
  · rw [Side.peer_peer, target', here, there, acks_append]
    omega
  · rw [target]
    omega
  · rw [target']
    exact between.wrapped _
  · rw [here]
    exact forall_mem_append.mpr ⟨between.proper _, moves.proper⟩
  · grind
  · rw [target]
    exact moves.ready
  rw [target']
  exact between.ready _

theorem set {t : Target} {wire : Side → List UInt8} (sent : t.sent = (s.target side).sent)
    (got : t.got = (s.target side).got) (handleQueue : t.handleQueue = (s.target side).handleQueue)
    (wrapped : t.wrapped = (s.target side).wrapped)
    (acknowledged : t.acknowledged = (s.target side).acknowledged)
    (unread : wire side = s.wire side)
    (receiving : Receiving t.receiver (wire side.peer) (lines side.peer)) :
    Between json kind { s with target := update s.target side t, wire } lines := by
  have ne := side.peer_ne
  have target : update s.target side t side = t := update_self side _ _
  have target' : update s.target side t side.peer = s.target side.peer :=
    update_of_ne ne _ _
  refine ⟨?_, ?_, ?_, ?_, between.proper, ?_, between.sound⟩
  all_goals
    intro other
    dsimp only
    rcases side.eq_or_eq_peer other with rfl | rfl
  · rw [target', unread]
    exact between.receiving _
  · rw [Side.peer_peer, target]
    exact receiving
  · rw [target, target', sent, waiting, handleQueue]
    exact between.order _
  · have order := between.order side.peer
    rw [Side.peer_peer] at order ⊢
    rw [target, target', got]
    exact order
  · rw [target, Target.outstanding, handleQueue]
    exact between.outstanding _
  · rw [target']
    exact between.outstanding _
  · rw [target, Target.outstanding, handleQueue, wrapped, acknowledged]
    exact between.wrapped _
  · rw [target']
    exact between.wrapped _
  · rw [target, handleQueue]
    exact between.ready _
  rw [target']
  exact between.ready _

theorem send (side : Side) {message : Json}
    (handle : Option Nat) (sendable : json.Sendable message) :
    ∃ lines',
      Between json kind (s.after side ((s.target side).send json (kind side) message handle))
      lines' := by
  obtain ⟨new, messages, bytes, receiver, moves⟩ :=
    exists_moves_send handle (between.ready side) sendable
  have receiving := between.receiving side.peer
  rw [Side.peer_peer, ← receiver] at receiving
  exact ⟨_, between.after (nil_append _).symm bytes receiving moves⟩

theorem next (carries : json.Carries nodeHandleAck nodeHandleAck) {line : Line json}
    {later : List (Line json)} (split : lines side.peer = line :: later) {receiver : Receiver Nat}
    (receiving : Receiving receiver (s.wire side.peer) later) :
    ∃ result lines',
      ({ s.target side with receiver } : Target).handleMessage json (kind side) line.value =
        some result ∧
      Between json kind (s.after side result) lines' := by
  have proper := between.proper side.peer line (by rw [split]; exact mem_cons_self)
  have answered : line.value.cmd = some (js "NODE_HANDLE_ACK") →
      (s.target side).handleQueue.isSome = true := by
    intro ack
    have counted := between.outstanding side
    have one : acks (lines side.peer) = 1 + acks later := by simp [split, acks, commands_cons, ack]
    by_contra idle
    rw [Target.outstanding, if_neg idle] at counted
    omega
  obtain ⟨result, new, handled, bytes, same, moves⟩ :=
    exists_moves_next (t := { s.target side with receiver }) proper carries answered
      (between.ready side)
  have receiving' : Receiving result.1.receiver (s.wire side.peer) later := by
    rw [same]
    exact receiving
  have split' : lines side.peer = [line] ++ later := split
  exact ⟨result, _, handled, between.after split' bytes receiving' moves.of_receiver⟩

end

/-- After each step of either side there are lines under way that connect the two. -/
theorem step (decodes : ∀ text, toString "utf8" (utf8Encode text) = utf16Encode text)
    (carries : json.Carries nodeHandleAck nodeHandleAck) (between : Between json kind s lines)
    {a : State.Action} (users : ∀ side message handle, a = .send side message handle →
      json.Sendable message) {s' : State} (stepped : s.step toString json kind a = some s') :
    ∃ lines', Between json kind s' lines' := by
  cases a with
  | send side message handle =>
    cases stepped
    exact between.send side handle (users side message handle rfl)
  | read side n recvHandle =>
    rw [State.step] at stepped
    split_ifs at stepped with possible
    cases stepped
    have receiving := between.receiving side.peer
    rw [Side.peer_peer, ← take_append_drop n (s.wire side.peer)] at receiving
    refine ⟨lines, between.set rfl rfl rfl rfl rfl ?_ ?_⟩
    · exact update_of_ne side.peer_ne.symm _ _
    · simpa using receiving.read decodes recvHandle
  | next side =>
    rw [State.step] at stepped
    cases call : (s.target side).receiver.call with
    | none => grind
    | some recvHandle =>
      have receiving := between.receiving side.peer
      rw [Side.peer_peer] at receiving
      rw [call] at stepped
      dsimp only at stepped
      rcases receiving.next recvHandle with ⟨line, later, r', split, round, rest, -⟩ |
        ⟨r', round, same, -⟩
      · obtain ⟨result, lines', handled, between'⟩ := between.next carries split rest
        rw [round] at stepped
        dsimp only at stepped
        rw [handled] at stepped
        cases stepped
        exact ⟨lines', between'⟩
      rw [round] at stepped
      cases stepped
      exact ⟨lines, between.set rfl rfl rfl rfl rfl rfl same⟩
  | change side =>
    cases stepped
    have receiving := between.receiving side.peer
    rw [Side.peer_peer] at receiving
    exact ⟨lines, between.set rfl rfl rfl rfl rfl rfl receiving⟩

theorem initial (objects : Side → Nat → Handle) :
    Between json kind (.initial objects) fun _ => [] where
  receiving _ := .new
  order _ := rfl
  outstanding _ := rfl
  wrapped _ := rfl
  proper _ _ mem := absurd mem not_mem_nil
  ready _ queue eq := by cases eq
  sound := rfl

end Between

/-- The users send these messages. -/
def Users (user : Json → Bool) (_ : State) : State.Action → Prop
  | .send _ message _ => user message = true
  | _ => True

instance (user : Json → Bool) (s : State) (a : State.Action) : Decidable (Users user s a) := by
  cases a with
  | send side message => exact inferInstanceAs (Decidable (user message = true))
  | read | next | change => exact isTrue trivial

/-- **The order of messages**, in every run: the messages that a side has read are the first ones
that the other one sent; once everything has been read, they are all. At most one message with a
handle is not acknowledged, and nothing throws. -/
theorem order_of_run {json : JSON} {kind : Side → Nat → Option Kind} {toString : ToString}
    (decodes : ∀ text, toString "utf8" (utf8Encode text) = utf16Encode text)
    (carries : json.Carries nodeHandleAck nodeHandleAck) {user : Json → Bool}
    (sendable : ∀ message, user message = true → json.Sendable message)
    {objects : Side → Nat → Handle} {s : State}
    (run : Run (State.step toString json kind) (Users user) (.initial objects) s) :
    s.failed = false ∧ ∀ side, (s.target side.peer).got <+: (s.target side).sent.map json.arrived ∧
      ((∀ side, s.wire side = [] ∧ (s.target side).receiver.call = none) →
        (s.target side.peer).got = (s.target side).sent.map json.arrived) ∧
      (s.target side).acknowledged ≤ (s.target side).wrapped ∧
      (s.target side).wrapped ≤ (s.target side).acknowledged + 1 := by
  have invariant : ∃ lines, Between json kind s lines := by
    refine Run.invariant (fun s => ∃ lines, Between json kind s lines) ⟨_, .initial objects⟩ ?_ run
    rintro s s' a ⟨lines, between⟩ permitted stepped
    refine between.step decodes carries ?_ stepped
    rintro side message handle rfl
    exact sendable message permitted
  obtain ⟨lines, between⟩ := invariant
  refine ⟨between.sound, fun side => ⟨?_, ?_, ?_, ?_⟩⟩
  · grind [between.order]
  · intro quiet
    have none : ∀ side, lines side = [] := by
      intro side
      have receiving := between.receiving side
      rw [(quiet side).1] at receiving
      exact receiving.eq_nil (quiet side.peer).2
    have idle := between.outstanding side
    rw [none side, none side.peer, Target.outstanding] at idle
    have closed : (s.target side).handleQueue = Option.none := by
      by_contra busy
      rw [if_pos (isSome_iff_ne_none.mpr busy)] at idle
      cases idle
    rw [between.order side, none side, Target.waiting_none closed, append_nil]
    exact (append_nil _).symm
  · have counted := between.wrapped side
    omega
  have counted := between.wrapped side
  have one : (s.target side).outstanding ≤ 1 := by
    rw [Target.outstanding]
    split <;> decide
  omega

/-! ## Two messages -/

/-- A message with a handle, `null` with a handle of a kind, as `JSON.stringify` writes it -/
def wrappedText (kind : Kind) : JSString :=
  js "\x7b\"cmd\":\"NODE_HANDLE\",\"type\":\"" ++ kind.type ++ js "\",\"msg\":null\x7d"

/-- `JSON`, for these messages, for `null` and for the acknowledgement -/
def nullJson : JSON where
  stringify message :=
    if message.cmd = some (js "NODE_HANDLE_ACK") then js "\x7b\"cmd\":\"NODE_HANDLE_ACK\"\x7d"
    else
      match Kind.find message with
      | some kind => wrappedText kind
      | none => js "null"
  parse text :=
    if text = js "null" then some .null
    else if text = js "\x7b\"cmd\":\"NODE_HANDLE_ACK\"\x7d" then some nodeHandleAck
    else
      ([Kind.socket, .server, .native, .dgramSocket, .dgramNative].find? fun kind =>
        wrappedText kind = text).map fun kind => nodeHandle kind .null []

def isNull : Json → Bool
  | .null => true
  | _ => false

theorem text_nodeHandle (kind : Kind) (additions : List (JSString × Json)) :
    nullJson.text (nodeHandle kind .null additions) = scalars (wrappedText kind) := by
  cases kind <;> rfl

theorem sendable_null (null : isNull message = true) : nullJson.Sendable message := by
  obtain rfl : message = .null := by
    cases message with
    | null => rfl
    | bool | number | string | array | object => cases null
  have carries : nullJson.Carries .null .null := ⟨by decide, rfl⟩
  refine ⟨rfl, carries, rfl, ?_⟩
  intro kind handle
  refine ⟨nodeHandle kind .null [], ⟨?_, ?_⟩, rfl, rfl, rfl⟩
  · rw [text_nodeHandle]
    cases kind <;> decide
  · cases kind <;> rfl

theorem carries_ack : nullJson.Carries nodeHandleAck nodeHandleAck := ⟨by decide, rfl⟩

/-- A message with a handle, and one that waits for the acknowledgement -/
def exchange : List State.Action :=
  [.send .parent .null (some 0), .send .parent .null none, .read .child 30 (some 0), .next .child,
    .read .child 23 none, .next .child, .next .child, .read .parent 26 none, .next .parent,
    .next .parent, .read .child 5 none, .next .child, .next .child]

theorem order_of_two :
    ∃ s, Run (State.step utf8ToString nullJson fun _ _ => some .native) (Users isNull)
        (.initial fun _ _ => { native := some 0, connectionKey := none, type := [] }) s ∧
      (s.target .parent).sent.length = 2 ∧
      (s.target .child).got = (s.target .parent).sent.map nullJson.arrived := by
  obtain ⟨s, run, ⟨parent, child⟩, two⟩ := Run.exists_of_exec
    (State.step utf8ToString nullJson fun _ _ => some .native) (Users isNull)
    (.initial fun _ _ => { native := some 0, connectionKey := none, type := [] })
    (fun s => ((s.wire .parent = [] ∧ (s.target .parent).receiver.call = none) ∧
        s.wire .child = [] ∧ (s.target .child).receiver.call = none) ∧
      (s.target .parent).sent.length = 2) exchange (by decide +kernel)
  refine ⟨s, run, two, ?_⟩
  have ordered := (order_of_run utf8ToString_utf8Encode carries_ack
    (fun message null => sendable_null null) run).2 .parent
  apply ordered.2.1
  intro side
  cases side with
  | parent => exact parent
  | child => exact child

end IoJs.ChildProcess
