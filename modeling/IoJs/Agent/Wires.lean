import IoJs.Agent.Queues
import IoJs.Http.Mirror

/-!
# What is on a socket

What a request writes goes to its socket, or waits until the socket comes, and nothing is left
behind (`Spoken`, `Settled`). What is on a socket is what its requests have passed on, one after
the other (`Wired`), and where a socket may be given away, they have passed on everything
(`Placed`).
-/

namespace IoJs.Agent

open IoJs.Stream IoJs.RegExp IoJs.Http List
open IoJs.Http.OutgoingMessage (Begun Mirrors Heads Direct)
open Function (update update_of_ne update_self)

namespace State

variable {config : Config} {env : Environment} {a a' : State} {r s : Nat} {changed : Socket}

/-! ## What a request says -/

theorem heads_implicitHeader (env : Environment) (link : Option Link) (firstLine : JSString) :
    Heads link (implicitHeader env link firstLine) (implicitHeader env none firstLine) := by
  have stores (link : Option Link) {m : OutgoingMessage} (unstored : m.header = none) :
      ∃ headers, implicitHeader env link firstLine m = m.storeHeaders env link firstLine headers ∧
      implicitHeader env none firstLine m = m.storeHeaders env none firstLine headers := by
    have rendered : m.renderHeaders.isSome := by
      rw [OutgoingMessage.renderHeaders, if_neg (by rw [unstored]; decide)]
      rfl
    obtain ⟨headers, rendered⟩ := Option.isSome_iff_exists.mp rendered
    refine ⟨headers, ?_, ?_⟩
    · rw [implicitHeader, rendered]
    · rw [implicitHeader, rendered]
  refine ⟨?_, ?_, ?_, ?_, ?_⟩
  · intro m lossless unstored empty
    obtain ⟨headers, linked, alone⟩ := stores link unstored
    rw [linked, alone]
    exact OutgoingMessage.storeHeaders_mirrors lossless env firstLine headers empty
  · intro m direct unstored empty
    obtain ⟨headers, linked, -⟩ := stores link unstored
    rw [linked]
    exact OutgoingMessage.storeHeaders_direct direct env firstLine headers empty
  · intro m held unstored
    obtain ⟨headers, linked, -⟩ := stores link unstored
    rw [linked]
    exact OutgoingMessage.storeHeaders_silent held env firstLine headers m
  · intro m unstored
    obtain ⟨headers, linked, -⟩ := stores link unstored
    rw [linked]
    exact (OutgoingMessage.storeHeaders_fields env link firstLine headers m).1
  intro m unstored
  obtain ⟨headers, linked, -⟩ := stores link unstored
  rw [linked]
  exact (OutgoingMessage.storeHeaders_fields env link firstLine headers m).2

/-- What a request has passed on is the beginning of what it is, and on a connection that is not
destroyed nothing else is missing than what it holds. -/
structure Spoken (link : Option Link) (request : Request) : Prop where
  begun : request.own.Begun
  finished : request.own.finished = request.message.finished
  passed : request.passed <+: request.own.output
  mirror : Lossless link → request.own = request.message.behind request.passed

/-- The request after a call -/
def told (request : Request) (result : OutgoingMessage × List Piece) (own : OutgoingMessage) :
    Request :=
  { request with message := result.1, passed := request.passed ++ result.2, own }

section

variable {link : Option Link} {request : Request}

section

variable (spoken : Spoken link request)
include spoken

theorem Spoken.told {result own : OutgoingMessage × List Piece}
    (mirrors : Lossless link → Mirrors request.passed result own)
    (silent : ¬Direct link → result.2 = [])
    (grows : request.own.output <+: own.1.output ∧ own.1.Begun)
    (finished : own.1.finished = result.1.finished) : Spoken link (told request result own.1) where
  begun := grows.2
  finished := finished
  passed := by
    by_cases lossless : Lossless link
    · have own' := congrArg OutgoingMessage.output (mirrors lossless).message
      simp only [State.told]
      simp [own', OutgoingMessage.behind_output]
    have written : result.2 = [] := silent fun direct => lossless direct.lossless
    simpa [State.told, written] using spoken.passed.trans grows.1
  mirror lossless := (mirrors lossless).message

theorem Spoken.write (chunk : Data) (encoding : Option JSString) : Spoken link (State.told request
    (request.message.write link (implicitHeader env link request.firstLine) chunk encoding)
    (request.own.write none (implicitHeader env none request.firstLine) chunk encoding).1) := by
  have heads := heads_implicitHeader env link request.firstLine
  have alone := heads_implicitHeader env none request.firstLine
  apply spoken.told
  · intro lossless
    have begun := spoken.begun
    rw [spoken.mirror lossless] at begun ⊢
    exact OutgoingMessage.write_mirrors lossless heads chunk encoding begun
  · exact fun held => OutgoingMessage.write_silent held heads chunk encoding _
  · exact OutgoingMessage.write_grows alone chunk encoding spoken.begun
  · rw [OutgoingMessage.write_finished alone, OutgoingMessage.write_finished heads, spoken.finished]

theorem Spoken.end_ (data : Option Data) (encoding : Option JSString) :
    Spoken link (State.told request
      (request.message.end_ link (implicitHeader env link request.firstLine) data encoding)
      (request.own.end_ none (implicitHeader env none request.firstLine) data encoding).1) := by
  have heads := heads_implicitHeader env link request.firstLine
  have alone := heads_implicitHeader env none request.firstLine
  apply spoken.told
  · intro lossless
    have begun := spoken.begun
    rw [spoken.mirror lossless] at begun ⊢
    exact OutgoingMessage.end_mirrors lossless heads alone data encoding begun
  · exact fun held => OutgoingMessage.end_silent held heads data encoding _
  · exact OutgoingMessage.end_grows alone data encoding spoken.begun
  · simp [OutgoingMessage.end_finished]

theorem Spoken.flush (lossless : Lossless link) :
    Spoken link (State.told request request.message.flush request.own) := by
  have mirror := spoken.mirror lossless
  refine ⟨spoken.begun, spoken.finished, ?_, ?_⟩
  · have output := congrArg OutgoingMessage.output mirror
    simp only [State.told, OutgoingMessage.flush]
    simp [output]
  · simp [State.told, mirror, OutgoingMessage.flush, OutgoingMessage.behind]

end

end

/-! ## What is on a socket -/

/-- Whoever has had a socket has said everything. -/
def Clean (a : State) (s : Nat) : Prop := ∀ r ∈ (a.socket s).attached, a.isWhole r = true

/-- What holds of the sockets and their requests at any time -/
structure Wired (a : State) : Prop where
  spoken : ∀ r, Spoken (a.link r) (a.request r)
  alive : ∀ s, (a.socket s).writable = true → (a.socket s).destroyed = false
  unattached : ∀ r, (a.request r).socket = none → (a.request r).passed = []
  attached : ∀ r s, r ∈ (a.socket s).attached ↔ (a.request r).socket = some s
  nodup : ∀ s, (a.socket s).attached.Nodup
  last : ∀ s r, (a.socket s).httpMessage = some r → (a.socket s).attached.getLast? = some r
  wire : ∀ s, (a.socket s).wire = (a.socket s).attached.flatMap fun r => (a.request r).passed
  whole : ∀ s, ∀ r ∈ (a.socket s).attached.dropLast, a.isWhole r = true
  clean : ∀ s, (a.socket s).httpMessage = none → Clean a s

theorem Spoken.new {firstLine : JSString} {message : OutgoingMessage} (begun : message.Begun) :
    Spoken none (.new firstLine message) where
  begun := begun
  finished := rfl
  passed := nil_prefix
  mirror _ := rfl

theorem Wired.new : Wired .new where
  spoken r := .new fun _ => rfl
  alive s _ := rfl
  unattached r _ := rfl
  attached r s := ⟨nofun, fun has => by cases has⟩
  nodup s := nodup_nil
  last s r has := by cases has
  wire s := rfl
  whole s r mem := absurd mem not_mem_nil
  clean s _ r mem := absurd mem not_mem_nil

theorem link_of_none (noSocket : (a.request r).socket = none) : a.link r = none := by
  rw [link, noSocket]
  rfl

theorem link_of_some (has : (a.request r).socket = some s) : a.link r = some
    { own := (a.socket s).httpMessage = some r
      writable := (a.socket s).writable
      destroyed := (a.socket s).destroyed } := by
  rw [link, has]
  rfl

theorem lossless_link : Lossless (a.link r) ↔
    ∀ s, (a.request r).socket = some s → (a.socket s).destroyed = false := by
  cases has : (a.request r).socket with
  | none =>
    rw [link_of_none has]
    exact ⟨fun _ s has' => (by cases has'), fun _ => .none⟩
  | some s =>
    rw [link_of_some has]
    constructor
    · rintro lossless s' ⟨⟩
      exact lossless _ rfl
    rintro whole l ⟨⟩
    exact whole s rfl

theorem direct_link : Direct (a.link r) ↔
    ∃ s, (a.request r).socket = some s ∧ (a.socket s).httpMessage = some r ∧
      (a.socket s).writable = true ∧ (a.socket s).destroyed = false := by
  cases has : (a.request r).socket with
  | none =>
    rw [link_of_none has]
    constructor
    · rintro ⟨l, ⟨⟩, -⟩
    · rintro ⟨s, ⟨⟩, -⟩
  | some s =>
    rw [link_of_some has]
    constructor
    · rintro ⟨l, ⟨⟩, own, open_⟩
      exact ⟨s, rfl, of_decide_eq_true own, open_⟩
    rintro ⟨s', ⟨⟩, own, open_⟩
    exact ⟨_, rfl, decide_eq_true own, open_⟩

theorem Wired.socket_of_message (wired : Wired a) (message : (a.socket s).httpMessage = some r) :
    (a.request r).socket = some s :=
  (wired.attached r s).mp (mem_of_getLast? (wired.last s r message))

theorem Wired.clean_of_last (wired : Wired a)
    (last : ∀ r, (a.socket s).httpMessage = some r → a.isWhole r = true) : Clean a s := by
  cases message : (a.socket s).httpMessage with
  | none => exact wired.clean s message
  | some r =>
    intro r' mem
    have ends := wired.last s r message
    rw [← dropLast_append_getLast? r ends, mem_append, mem_singleton] at mem
    obtain mem | rfl := mem
    · exact wired.whole s r' mem
    · exact last r' message

/-- Two states in which the same is on the sockets -/
structure SameWires (a a' : State) : Prop where
  attached : ∀ s, (a'.socket s).attached = (a.socket s).attached
  wire : ∀ s, (a'.socket s).wire = (a.socket s).wire
  httpMessage : ∀ s, (a'.socket s).httpMessage = (a.socket s).httpMessage
  socket : ∀ r, (a'.request r).socket = (a.request r).socket
  finished : ∀ r, (a'.request r).message.finished = (a.request r).message.finished
  passed : ∀ r, (a'.request r).passed = (a.request r).passed
  own : ∀ r, (a'.request r).own.output = (a.request r).own.output

section

variable (same : SameWires a a')
include same

theorem SameWires.isWhole (r : Nat) : a'.isWhole r = a.isWhole r := by
  simp [State.isWhole, same.finished, same.passed, same.own]

theorem SameWires.clean (clean : Clean a s) : Clean a' s := by
  intro r mem
  rw [same.attached] at mem
  rw [same.isWhole]
  exact clean r mem

theorem SameWires.wired (wired : Wired a) (spoken : ∀ r, Spoken (a'.link r) (a'.request r))
    (alive : ∀ s, (a'.socket s).writable = true → (a'.socket s).destroyed = false) :
    Wired a' where
  spoken := spoken
  alive := alive
  unattached r := by
    rw [same.socket, same.passed]
    exact wired.unattached r
  attached r s := by
    rw [same.attached, same.socket]
    exact wired.attached r s
  nodup s := by
    rw [same.attached]
    exact wired.nodup s
  last s r := by
    rw [same.httpMessage, same.attached]
    exact wired.last s r
  wire s := by simpa [same.wire, same.attached, same.passed] using wired.wire s
  whole s r := by
    rw [same.attached, same.isWhole]
    exact wired.whole s r
  clean s message := by
    rw [same.httpMessage] at message
    exact same.clean (wired.clean s message)

theorem SameWires.wired_of_same (wired : Wired a)
    (message : ∀ r, (a'.request r).message = (a.request r).message)
    (own : ∀ r, (a'.request r).own = (a.request r).own)
    (destroyed : ∀ s, (a'.socket s).destroyed = false → (a.socket s).destroyed = false)
    (alive : ∀ s, (a'.socket s).writable = true → (a'.socket s).destroyed = false) :
    Wired a' := by
  refine same.wired wired ?_ alive
  intro r
  obtain ⟨begun, finished, passed, mirror⟩ := wired.spoken r
  rw [← own] at begun finished passed mirror
  rw [← message] at finished mirror
  rw [← same.passed] at passed mirror
  refine ⟨begun, finished, passed, fun lossless => mirror ?_⟩
  rw [lossless_link, same.socket] at lossless
  rw [lossless_link]
  exact fun s has => destroyed s (lossless s has)

end

theorem Wired.isWhole (wired : Wired a) (finished : (a.request r).message.finished = true)
    (lossless : Lossless (a.link r)) (empty : (a.request r).message.output = []) :
    a.isWhole r = true := by
  have mirror := congrArg OutgoingMessage.output ((wired.spoken r).mirror lossless)
  rw [OutgoingMessage.behind_output, empty, append_nil] at mirror
  rw [State.isWhole, finished, mirror]
  simp

/-- A socket can be written to, or it is destroyed. -/
def Usable (socket : Socket) : Prop := socket.writable = true ∨ socket.destroyed = true

/-- What holds of the places where a socket may be -/
structure Placed (a : State) : Prop where
  asking : ∀ r s, .onSocket r s ∈ a.ticks → Clean a s ∧ (a.request r).socket = none
  free : ∀ name, ∀ s ∈ a.freeSockets name, Clean a s
  usable : ∀ s, Idle a s ∨ Usable (a.socket s)
  served : ∀ r s, (a.request r).socket = some s → r ∈ a.served
  given : ∀ g ∈ a.given, g.incomplete = []

theorem Placed.new : Placed .new where
  asking r s mem := absurd mem not_mem_nil
  free name s mem := absurd mem not_mem_nil
  usable s := .inr (.inl rfl)
  served r s has := by cases has
  given g mem := absurd mem not_mem_nil

theorem Placed.keep (placed : Placed a) (phases : SamePhases a a') (given : a'.given = a.given)
    (clean : ∀ s, Clean a s → Clean a' s)
    (usable : ∀ s, Idle a s ∨ Usable (a.socket s) → Idle a s ∨ Usable (a'.socket s)) :
    Placed a' where
  asking r s mem := by
    rw [phases.ticks] at mem
    rw [phases.socket]
    exact (placed.asking r s mem).imp_left (clean s)
  free name s mem := by
    rw [phases.freeSockets] at mem
    exact clean s (placed.free name s mem)
  usable s := (usable s (placed.usable s)).imp_left phases.idle
  served r s has := by
    rw [phases.socket] at has
    rw [State.served, given]
    exact placed.served r s has
  given := by
    rw [given]
    exact placed.given

/-- A request holds nothing, as long as it may write. -/
def Settled (a : State) : Prop := ∀ r, Direct (a.link r) → (a.request r).message.output = []

theorem Settled.new : Settled .new := fun _ _ => rfl

theorem Settled.keep (settled : Settled a)
    (message : ∀ r, (a.request r).message.output = [] → (a'.request r).message.output = [])
    (direct : ∀ r, Direct (a'.link r) → Direct (a.link r)) : Settled a' :=
  fun r direct' => message r (settled r (direct r direct'))

/-- What holds of an agent at any time -/
structure Exchanging (a : State) : Prop where
  wired : Wired a
  settled : Settled a
  placed : Placed a

theorem Exchanging.new : Exchanging .new := ⟨.new, .new, .new⟩

/-! ## What says nothing -/

theorem sameWires_ofSocket (a : State) (s : Nat)
    (attached : changed.attached = (a.socket s).attached) (wire : changed.wire = (a.socket s).wire)
    (httpMessage : changed.httpMessage = (a.socket s).httpMessage) :
    SameWires a { a with socket := update a.socket s changed } :=
  ⟨field_update Socket.attached attached, field_update Socket.wire wire,
    field_update Socket.httpMessage httpMessage, fun _ => rfl, fun _ => rfl, fun _ => rfl,
    fun _ => rfl⟩

section

variable (exchanging : Exchanging a)
include exchanging

theorem Exchanging.ofSocket (s : Nat) (options : changed.options = (a.socket s).options)
    (attached : changed.attached = (a.socket s).attached) (wire : changed.wire = (a.socket s).wire)
    (httpMessage : changed.httpMessage = (a.socket s).httpMessage)
    (writable : changed.writable = true → (a.socket s).writable = true ∧ changed.destroyed = false)
    (destroyed : (a.socket s).destroyed = true → changed.destroyed = true)
    (usable : Idle a s ∨ Usable changed) :
    Exchanging { a with socket := update a.socket s changed } := by
  obtain ⟨wired, settled, placed⟩ := exchanging
  have wires := sameWires_ofSocket a s attached wire httpMessage
  have phases := SamePhases.ofSocket a s options httpMessage
  have destroyed' (s' : Nat) (whole : (update a.socket s changed s').destroyed = false) :
      (a.socket s').destroyed = false := by
    by_cases same : s' = s
    · subst same
      rw [update_self] at whole
      rw [← Bool.not_eq_true] at whole ⊢
      exact fun gone => whole (destroyed gone)
    · rwa [update_of_ne same] at whole
  refine ⟨wires.wired_of_same wired (fun _ => rfl) (fun _ => rfl) destroyed' ?_, ?_, ?_⟩
  · intro s'
    by_cases same : s' = s
    · subst same
      simpa using fun open_ => (writable open_).2
    simp only [update_of_ne same]
    exact wired.alive s'
  · refine settled.keep (fun _ empty => empty) ?_
    intro r direct
    rw [direct_link] at direct ⊢
    obtain ⟨s', has, message, open_, whole⟩ := direct
    refine ⟨s', has, (wires.httpMessage s').symm.trans message, ?_, destroyed' s' whole⟩
    by_cases same : s' = s
    · subst same
      simp only [update_self] at open_
      exact (writable open_).1
    · simpa only [update_of_ne same] using open_
  refine placed.keep phases rfl (fun _ => wires.clean) ?_
  intro s'
  by_cases same : s' = s
  · subst same
    simpa using fun _ => usable
  · simp [update_of_ne same]

theorem Exchanging.destroy (s : Nat) : Exchanging (a.destroy s) :=
  exchanging.ofSocket s rfl rfl rfl rfl nofun (fun _ => rfl)
    (.inr (.inr rfl))

theorem Exchanging.markClosed (s : Nat) : Exchanging (a.markClosed s) :=
  exchanging.ofSocket s rfl rfl rfl rfl (fun open_ => ⟨open_, exchanging.wired.alive s open_⟩) id
    (exchanging.placed.usable s)

theorem Exchanging.leave (s : Nat) : Exchanging (a.leave s) :=
  exchanging.ofSocket s rfl rfl rfl rfl (fun open_ => ⟨open_, exchanging.wired.alive s open_⟩) id
    (exchanging.placed.usable s)

theorem Exchanging.ofRequest (r : Nat) {changed : Request}
    (socket : changed.socket = (a.request r).socket) (ended : changed.ended = (a.request r).ended)
    (finished : changed.message.finished = (a.request r).message.finished)
    (passed : changed.passed = (a.request r).passed)
    (own : changed.own.output = (a.request r).own.output)
    (output : (a.request r).message.output = [] → changed.message.output = [])
    (spoken : Spoken (a.link r) changed) :
    Exchanging { a with request := update a.request r changed } := by
  obtain ⟨wired, settled, placed⟩ := exchanging
  have wires : SameWires a { a with request := update a.request r changed } :=
    ⟨fun _ => rfl, fun _ => rfl, fun _ => rfl, field_update Request.socket socket,
      field_update (fun request : Request => request.message.finished) finished,
      field_update Request.passed passed,
      field_update (fun request : Request => request.own.output) own⟩
  have link (r' : Nat) : State.link { a with request := update a.request r changed } r' =
      a.link r' := by
    rw [State.link, State.link, wires.socket]
  refine ⟨wires.wired wired ?_ wired.alive, ?_, ?_⟩
  · intro r'
    rw [link]
    by_cases same : r' = r
    · subst same
      simpa using spoken
    simp only [update_of_ne same]
    exact wired.spoken r'
  · refine settled.keep ?_ ?_
    · intro r'
      by_cases same : r' = r
      · subst same
        simpa using output
      · simp [update_of_ne same]
    · simp [link]
  · exact placed.keep (.ofRequest a r socket ended) rfl (fun _ => wires.clean) fun _ => id

theorem Exchanging.markAborted (r : Nat) : Exchanging (a.markAborted r) := by
  obtain ⟨begun, finished, passed, mirror⟩ := exchanging.wired.spoken r
  exact exchanging.ofRequest r rfl rfl rfl rfl rfl id ⟨begun, finished, passed, mirror⟩

theorem Exchanging.onIncoming (s r : Nat) (keepAlive : Bool) :
    Exchanging (a.onIncoming s r keepAlive) := by
  rw [State.onIncoming]
  split
  · exact exchanging.destroy s
  obtain ⟨begun, finished, passed, mirror⟩ := exchanging.wired.spoken r
  refine exchanging.ofRequest r rfl rfl rfl rfl rfl id ⟨begun, finished, passed, ?_⟩
  intro lossless
  have same := mirror lossless
  rw [same]
  rfl

theorem Exchanging.closeListener
    (destroyed : (a.socket s).destroyed = true) : Exchanging (a.closeListener s) := by
  rw [State.closeListener]
  split
  · rename_i r message
    split
    · obtain ⟨begun, finished, passed, -⟩ := exchanging.wired.spoken r
      refine exchanging.ofRequest r rfl rfl rfl rfl rfl (fun _ => rfl)
        ⟨begun, finished, passed, ?_⟩
      intro lossless
      have whole := lossless_link.mp lossless s (exchanging.wired.socket_of_message message)
      simp [destroyed] at whole
    · exact exchanging
  · exact exchanging

theorem Exchanging.finish (r : Nat) : Exchanging (a.finish r) := by
  obtain ⟨wired, settled, placed⟩ := exchanging
  have socket (r' : Nat) : ((a.finish r).request r').socket = (a.request r').socket := by
    apply field_update Request.socket
    rfl
  have message (r' : Nat) : ((a.finish r).request r').message = (a.request r').message := by
    apply field_update Request.message
    rfl
  have passed (r' : Nat) : ((a.finish r).request r').passed = (a.request r').passed := by
    apply field_update Request.passed
    rfl
  have own (r' : Nat) : ((a.finish r).request r').own = (a.request r').own := by
    apply field_update Request.own
    rfl
  have wires : SameWires a (a.finish r) :=
    ⟨fun _ => rfl, fun _ => rfl, fun _ => rfl, socket, fun r' => by rw [message], passed,
      fun r' => by rw [own]⟩
  refine ⟨wires.wired_of_same wired message own (fun _ => id) wired.alive, ?_, ?_⟩
  · refine settled.keep ?_ ?_
    · simp [message]
    intro r'
    rw [State.link, State.link, socket]
    exact id
  refine ⟨?_, ?_, ?_, ?_, placed.given⟩
  · intro r' s mem
    rw [socket]
    exact (placed.asking r' s mem).imp_left wires.clean
  · exact fun name s mem => wires.clean (placed.free name s mem)
  · exact fun s => (placed.usable s).imp_left fun idle => idle.finish r
  intro r' s has
  rw [socket] at has
  exact placed.served r' s has

end

end State

end IoJs.Agent
