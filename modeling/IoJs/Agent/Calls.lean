import IoJs.Agent.Wires

/-!
# What a request does

A request that has its socket to itself is the last one of that socket, so what it writes goes
behind all that is there. When it gets the socket, it writes what it held until then.
-/

namespace IoJs.Agent

open IoJs.Stream IoJs.RegExp IoJs.Http List Option
open IoJs.Http.OutgoingMessage (Direct)
open Function (update update_of_ne update_self)
open OutgoingMessage

namespace State

variable {config : Config} {env : Environment} {a a' : State} {r s : Nat} {s' r' : Nat}

/-! ## The functions of a request -/

theorem Exchanging.enter (exchanging : Exchanging a) (pooled : Pooled config a)
    (ordered : Ordered a) {firstLine : JSString} {message : OutgoingMessage}
    (begun : message.Begun) :
    Exchanging (a.enter (.new firstLine message)) := by
  obtain ⟨wired, settled, placed⟩ := exchanging
  have known {r s : Nat} (has : (a.request r).socket = some s) : r ≠ a.nextRequest :=
    Nat.ne_of_lt (ordered.known r (placed.served r s has))
  have kept {r : Nat} (other : r ≠ a.nextRequest) :
      (a.enter (.new firstLine message)).request r = a.request r :=
    update_of_ne other _ _
  have entered : (a.enter (.new firstLine message)).request a.nextRequest =
      .new firstLine message := update_self _ _ _
  have link {r : Nat} (other : r ≠ a.nextRequest) :
      (a.enter (.new firstLine message)).link r = a.link r := by
    rw [State.link, State.link, kept other]
    rfl
  have newLink : (a.enter (.new firstLine message)).link a.nextRequest = none := by
    refine link_of_none ?_
    rw [entered]
    rfl
  have isWhole {r s : Nat} (mem : r ∈ (a.socket s).attached) (whole : a.isWhole r = true) :
      (a.enter (.new firstLine message)).isWhole r = true := by
    rw [State.isWhole, kept (known ((wired.attached r s).mp mem))]
    exact whole
  have clean (s : Nat) (clean : Clean a s) : Clean (a.enter (.new firstLine message)) s :=
    fun r mem => isWhole mem (clean r mem)
  refine ⟨⟨?_, wired.alive, ?_, ?_, wired.nodup, wired.last, ?_, ?_, ?_⟩, ?_, ?_⟩
  · intro r
    by_cases same : r = a.nextRequest
    · subst same
      rw [newLink, entered]
      exact .new begun
    rw [link same, kept same]
    exact wired.spoken r
  · intro r
    by_cases same : r = a.nextRequest
    · subst same
      rw [entered]
      exact fun _ => rfl
    rw [kept same]
    exact wired.unattached r
  · intro r s
    by_cases same : r = a.nextRequest
    · subst same
      rw [entered]
      refine ⟨fun mem => ?_, fun has => by cases has⟩
      exact absurd rfl (known ((wired.attached _ s).mp mem))
    rw [kept same]
    exact wired.attached r s
  · intro s
    refine (wired.wire s).trans (flatMap_congr fun r mem => ?_)
    rw [kept (known ((wired.attached r s).mp mem))]
  · intro s r mem
    exact isWhole (mem_of_mem_dropLast mem) (wired.whole s r mem)
  · exact fun s none => clean s (wired.clean s none)
  · intro r direct
    by_cases same : r = a.nextRequest
    · subst same
      rw [newLink] at direct
      obtain ⟨l, has, -⟩ := direct
      cases has
    rw [link same] at direct
    rw [kept same]
    exact settled r direct
  obtain ⟨asking, free, usable, served, given⟩ := placed
  refine ⟨?_, ?_, ?_, ?_, given⟩
  · intro r s mem
    have other : r ≠ a.nextRequest := Nat.ne_of_lt (ordered.known_of_tick mem)
    rw [kept other]
    exact (asking r s mem).imp_left (clean s)
  · exact fun name s mem => clean s (free name s mem)
  · intro s
    refine (usable s).imp_left fun idle => ⟨idle.noTick, idle.notFree, ?_⟩
    rw [pooled.live_enter]
    exact idle.notLive
  intro r s has
  by_cases same : r = a.nextRequest
  · subst same
    rw [entered] at has
    cases has
  rw [kept same] at has
  exact served r s has

section

variable (r : Nat) (result : OutgoingMessage × List Piece) (own : OutgoingMessage) (a : State)

theorem pass_socket (s : Nat) : (a.pass r result own).socket s = { a.socket s with
    wire := (a.socket s).wire ++
      (if (a.request r).socket = some s then result.2 else []) } := by
  rw [State.pass]
  cases has : (a.request r).socket with
  | none => simp
  | some s' =>
    by_cases same : s = s'
    · subst same
      simp
    have other : ¬(some s' = some s) := fun same' => same (some.inj same').symm
    simp only [update_of_ne same, if_neg other, append_nil]

theorem pass_request :
    (a.pass r result own).request = update a.request r (told (a.request r) result own) :=
  rfl

theorem link_pass (r' : Nat) : (a.pass r result own).link r' = a.link r' := by
  have socket : ((a.pass r result own).request r').socket = (a.request r').socket := by
    apply field_update Request.socket
    rfl
  cases has : (a.request r').socket with
  | none => rw [link_of_none has, link_of_none (socket.trans has)]
  | some s => rw [link_of_some has, link_of_some (socket.trans has), pass_socket]

end

/-- What a call of a request may do -/
structure Call (a : State) (r : Nat) (result : OutgoingMessage × List Piece)
    (own : OutgoingMessage) : Prop where
  spoken : Spoken (a.link r) (told (a.request r) result own)
  silent : ¬Direct (a.link r) → result.2 = []
  settled : Direct (a.link r) → result.1.output = []
  whole : a.isWhole r = true →
    result.1.finished = true ∧ result.2 = [] ∧ own.output = (a.request r).own.output

section

variable {result : OutgoingMessage × List Piece} {own : OutgoingMessage}

section

variable (call : Call a r result own)
include call

theorem Call.isWhole {r' : Nat} (whole : a.isWhole r' = true) :
    (a.pass r result own).isWhole r' = true := by
  rw [State.isWhole, pass_request]
  by_cases same : r' = r
  · subst same
    obtain ⟨finished, nothing, kept⟩ := call.whole whole
    rw [State.isWhole, Bool.and_eq_true] at whole
    simp only [update_self, told, finished, nothing, kept, append_nil, whole.2, Bool.true_and]
  simp only [update_of_ne same]
  exact whole

theorem Call.clean (clean : Clean a s) : Clean (a.pass r result own) s := by
  intro r' mem
  rw [pass_socket] at mem
  exact call.isWhole (clean r' mem)

/-- What a request sends comes behind what its socket has, and on no other socket. -/
theorem Call.wire (wired : Wired a) (s : Nat) :
    ((a.socket s).attached.flatMap fun r' => ((a.pass r result own).request r').passed) =
      ((a.socket s).attached.flatMap fun r' => (a.request r').passed) ++
        (if (a.request r).socket = some s then result.2 else []) := by
  have others {attached : List Nat} (alone : r ∉ attached) :
      (attached.flatMap fun r' => ((a.pass r result own).request r').passed) =
        attached.flatMap fun r' => (a.request r').passed := by
    refine flatMap_congr fun r' mem => ?_
    have other : r' ≠ r := by
      rintro rfl
      exact alone mem
    rw [pass_request, update_of_ne other]
  by_cases has : (a.request r).socket = some s
  · rw [if_pos has]
    by_cases direct : Direct (a.link r)
    · -- then the request is the last one of the socket
      obtain ⟨s', has', message, -⟩ := direct_link.mp direct
      obtain rfl : s = s' := some.inj (has.symm.trans has')
      have ends := dropLast_append_getLast? r (wired.last s r message)
      have nodup := wired.nodup s
      rw [← ends] at nodup ⊢
      have alone : r ∉ (a.socket s).attached.dropLast := fun mem =>
        (nodup_append'.mp nodup).2.2 mem mem_cons_self
      have passed : ((a.pass r result own).request r).passed =
          (a.request r).passed ++ result.2 := by
        rw [pass_request, update_self]
        rfl
      rw [flatMap_append, flatMap_append, others alone, flatMap_singleton,
        flatMap_singleton, passed, append_assoc]
    have nothing := call.silent direct
    rw [nothing, append_nil]
    refine flatMap_congr fun r' _ => ?_
    rw [pass_request]
    apply field_update Request.passed
    simp only [told, nothing, append_nil]
  rw [if_neg has, append_nil]
  exact others fun mem => has ((wired.attached r s).mp mem)

theorem Call.wired (wired : Wired a) : Wired (a.pass r result own) := by
  have socket (r' : Nat) : ((a.pass r result own).request r').socket = (a.request r').socket := by
    apply field_update Request.socket
    rfl
  refine ⟨?_, ?_, ?_, ?_, ?_, ?_, ?_, ?_, ?_⟩
  · intro r'
    rw [link_pass, pass_request]
    by_cases same : r' = r
    · subst same
      rw [update_self]
      exact call.spoken
    rw [update_of_ne same]
    exact wired.spoken r'
  · intro s
    rw [pass_socket]
    exact wired.alive s
  · intro r' none
    rw [socket] at none
    rw [pass_request]
    by_cases same : r' = r
    · subst same
      have nothing : result.2 = [] := by
        refine call.silent fun direct => ?_
        obtain ⟨s, has, -⟩ := direct_link.mp direct
        rw [none] at has
        cases has
      simp only [update_self, told, wired.unattached r' none, nothing, append_nil]
    rw [update_of_ne same]
    exact wired.unattached r' none
  · intro r' s
    rw [pass_socket, socket]
    exact wired.attached r' s
  · intro s
    rw [pass_socket]
    exact wired.nodup s
  · intro s r'
    rw [pass_socket]
    exact wired.last s r'
  · intro s
    rw [pass_socket]
    simp only
    rw [call.wire wired, wired.wire]
  · intro s r' mem
    rw [pass_socket] at mem
    exact call.isWhole (wired.whole s r' mem)
  intro s none
  rw [pass_socket] at none
  exact call.clean (wired.clean s none)

theorem Call.placed (placed : Placed a) : Placed (a.pass r result own) := by
  refine placed.keep (samePhases_pass r result own a) rfl (fun _ => call.clean) ?_
  intro s
  rw [pass_socket]
  exact id

theorem Call.settled'
    (settled : ∀ r', r' ≠ r → Direct (a.link r') → (a.request r').message.output = []) :
    Settled (a.pass r result own) := by
  intro r' direct
  rw [link_pass] at direct
  rw [pass_request]
  by_cases same : r' = r
  · subst same
    rw [update_self]
    exact call.settled direct
  rw [update_of_ne same]
  exact settled r' same direct

end

theorem Exchanging.pass (exchanging : Exchanging a) (call : Call a r result own) :
    Exchanging (a.pass r result own) :=
  ⟨call.wired exchanging.wired, call.settled' fun r' _ => exchanging.settled r',
    call.placed exchanging.placed⟩

end

theorem Exchanging.write (exchanging : Exchanging a) (env : Environment) (r : Nat) (chunk : Data)
    (encoding : Option JSString) :
    Call a r
      ((a.request r).message.write (a.link r)
        (implicitHeader env (a.link r) (a.request r).firstLine) chunk encoding)
      ((a.request r).own.write none (implicitHeader env none (a.request r).firstLine) chunk
        encoding).1 := by
  have spoken := exchanging.wired.spoken r
  have heads := heads_implicitHeader env (a.link r) (a.request r).firstLine
  refine ⟨spoken.write chunk encoding, ?_, ?_, ?_⟩
  · exact fun held => write_silent held heads chunk encoding _
  · exact fun direct =>
      write_direct direct heads chunk encoding (exchanging.settled r direct)
  intro whole
  rw [State.isWhole, Bool.and_eq_true] at whole
  have finished := spoken.finished.trans whole.1
  rw [write_of_finished _ _ _ _ whole.1,
    write_of_finished _ _ _ _ finished]
  exact ⟨whole.1, rfl, rfl⟩

theorem Exchanging.end_ (exchanging : Exchanging a) (env : Environment) (r : Nat)
    (data : Option Data) (encoding : Option JSString) :
    Call a r
      ((a.request r).message.end_ (a.link r)
        (implicitHeader env (a.link r) (a.request r).firstLine) data encoding)
      ((a.request r).own.end_ none (implicitHeader env none (a.request r).firstLine) data
        encoding).1 := by
  have spoken := exchanging.wired.spoken r
  have heads := heads_implicitHeader env (a.link r) (a.request r).firstLine
  refine ⟨spoken.end_ data encoding, ?_, ?_, ?_⟩
  · exact fun held => end_silent held heads data encoding _
  · exact fun direct =>
      end_direct direct heads data encoding (exchanging.settled r direct)
  intro whole
  rw [State.isWhole, Bool.and_eq_true] at whole
  have finished := spoken.finished.trans whole.1
  rw [end_of_finished _ _ _ _ whole.1,
    end_of_finished _ _ _ _ finished]
  exact ⟨whole.1, rfl, rfl⟩

/-! ## A request gets its socket -/

theorem hold_socket_self (r s : Nat) (a : State) : (a.hold r s).socket s = { a.socket s with
        httpMessage := some r
        watched := true
        attached := (a.socket s).attached ++ [r] } := update_self _ _ _

theorem hold_socket_of_ne (r : Nat) (other : s' ≠ s) (a : State) :
    (a.hold r s).socket s' = a.socket s' := update_of_ne other _ _

theorem hold_request_self (r s : Nat) (a : State) :
    (a.hold r s).request r = { a.request r with socket := some s } := update_self _ _ _

theorem hold_request_of_ne (s : Nat) (other : r' ≠ r) (a : State) :
    (a.hold r s).request r' = a.request r' := update_of_ne other _ _

theorem isWhole_hold (r s : Nat) (a : State) (r' : Nat) :
    (a.hold r s).isWhole r' = a.isWhole r' := by
  rw [State.isWhole, State.isWhole]
  by_cases same : r' = r
  · subst same
    rw [hold_request_self]
  · rw [hold_request_of_ne s same]

theorem destroyed_hold (r s : Nat) (a : State) (s' : Nat) :
    ((a.hold r s).socket s').destroyed = (a.socket s').destroyed := by
  apply field_update Socket.destroyed
  rfl

theorem clean_hold (other : s' ≠ s) (clean : Clean a s') : Clean (a.hold r s) s' := by
  intro r' mem
  rw [hold_socket_of_ne r other] at mem
  rw [isWhole_hold]
  exact clean r' mem

theorem Wired.hold (wired : Wired a) (clean : Clean a s) (noSocket : (a.request r).socket = none) :
    Wired (a.hold r s) := by
  have fresh (s' : Nat) : r ∉ (a.socket s').attached := by
    intro mem
    have has := (wired.attached r s').mp mem
    rw [noSocket] at has
    cases has
  have passed (r' : Nat) : ((a.hold r s).request r').passed = (a.request r').passed := by
    apply field_update Request.passed
    rfl
  refine ⟨?_, ?_, ?_, ?_, ?_, ?_, ?_, ?_, ?_⟩
  · intro r'
    by_cases same : r' = r
    · subst same
      rw [hold_request_self]
      obtain ⟨begun, finished, passed, mirror⟩ := wired.spoken r'
      rw [link_of_none noSocket] at mirror
      exact ⟨begun, finished, passed, fun _ => mirror .none⟩
    obtain ⟨begun, finished, passed, mirror⟩ := wired.spoken r'
    rw [hold_request_of_ne s same]
    refine ⟨begun, finished, passed, fun lossless => mirror ?_⟩
    rw [lossless_link, hold_request_of_ne s same] at lossless
    rw [lossless_link]
    intro s' has
    rw [← destroyed_hold r s]
    exact lossless s' has
  · intro s'
    by_cases same : s' = s
    · subst same
      rw [hold_socket_self]
      exact wired.alive s'
    rw [hold_socket_of_ne r same]
    exact wired.alive s'
  · intro r' none
    rw [passed]
    by_cases same : r' = r
    · subst same
      rw [hold_request_self] at none
      cases none
    rw [hold_request_of_ne s same] at none
    exact wired.unattached r' none
  · intro r' s'
    by_cases same : r' = r
    · subst same
      rw [hold_request_self]
      by_cases here : s' = s
      · subst here
        rw [hold_socket_self]
        simp
      rw [hold_socket_of_ne r' here]
      exact ⟨fun mem => absurd mem (fresh s'), fun has => absurd (some.inj has).symm here⟩
    rw [hold_request_of_ne s same, ← wired.attached r' s']
    by_cases here : s' = s
    · subst here
      rw [hold_socket_self]
      simp [same]
    · rw [hold_socket_of_ne r here]
  · intro s'
    by_cases here : s' = s
    · subst here
      rw [hold_socket_self]
      refine nodup_append'.mpr ⟨wired.nodup s', nodup_singleton r, ?_⟩
      rw [disjoint_singleton]
      exact fresh s'
    rw [hold_socket_of_ne r here]
    exact wired.nodup s'
  · intro s' r' message
    by_cases here : s' = s
    · subst here
      rw [hold_socket_self] at message ⊢
      rw [List.getLast?_concat]
      exact message
    rw [hold_socket_of_ne r here] at message ⊢
    exact wired.last s' r' message
  · intro s'
    simp only [passed]
    by_cases here : s' = s
    · subst here
      rw [hold_socket_self]
      simp only
      rw [flatMap_append, flatMap_singleton, wired.unattached r noSocket, append_nil]
      exact wired.wire s'
    rw [hold_socket_of_ne r here]
    exact wired.wire s'
  · intro s' r' mem
    rw [isWhole_hold]
    by_cases here : s' = s
    · subst here
      rw [hold_socket_self, dropLast_concat] at mem
      exact clean r' mem
    rw [hold_socket_of_ne r here] at mem
    exact wired.whole s' r' mem
  intro s' none
  by_cases here : s' = s
  · subst here
    rw [hold_socket_self] at none
    cases none
  rw [hold_socket_of_ne r here] at none
  exact clean_hold here (wired.clean s' none)

theorem Placed.hold (placed : Placed a) (idle : Idle a s) (usable : Usable (a.socket s))
    (served : r ∈ a.served) (alone : ∀ s', .onSocket r s' ∉ a.ticks) : Placed (a.hold r s) := by
  refine ⟨?_, ?_, ?_, ?_, placed.given⟩
  · intro r' s' mem
    have other : s' ≠ s := by
      rintro rfl
      exact idle.noTick (List.mem_map_of_mem mem)
    have other' : r' ≠ r := by
      rintro rfl
      exact alone s' mem
    rw [hold_request_of_ne s other']
    exact (placed.asking r' s' mem).imp_left (clean_hold other)
  · intro name s' mem
    have other : s' ≠ s := by
      rintro rfl
      exact idle.notFree name mem
    exact clean_hold other (placed.free name s' mem)
  · intro s'
    by_cases same : s' = s
    · subst same
      rw [hold_socket_self]
      exact .inr usable
    rw [hold_socket_of_ne r same]
    refine (placed.usable s').imp_left fun idle' => ⟨idle'.noTick, idle'.notFree, ?_⟩
    have notLive := idle'.notLive
    simp only [live, ended_hold, hold_socket_of_ne r same] at notLive ⊢
    exact notLive
  intro r' s' has
  by_cases same : r' = r
  · subst same
    exact served
  rw [hold_request_of_ne s same] at has
  exact placed.served r' s' has

theorem direct_hold (other : r' ≠ r) (direct : Direct ((a.hold r s).link r')) :
    Direct (a.link r') := by
  rw [direct_link, hold_request_of_ne s other] at direct
  obtain ⟨s', has, message, open_⟩ := direct
  rw [direct_link]
  by_cases same : s' = s
  · subst same
    rw [hold_socket_self] at message
    exact absurd (some.inj message).symm other
  rw [hold_socket_of_ne r same] at message open_
  exact ⟨s', has, message, open_⟩

theorem Exchanging.attach (exchanging : Exchanging a) (idle : Idle a s)
    (usable : Usable (a.socket s)) (clean : Clean a s) (noSocket : (a.request r).socket = none)
    (served : r ∈ a.served) (alone : ∀ s', .onSocket r s' ∉ a.ticks) :
    Exchanging (a.attach r s) := by
  obtain ⟨wired, settled, placed⟩ := exchanging
  have held := wired.hold clean noSocket
  have placed' := placed.hold idle usable served alone
  have others (r' : Nat) (other : r' ≠ r) (direct : Direct ((a.hold r s).link r')) :
      ((a.hold r s).request r').message.output = [] := by
    rw [hold_request_of_ne s other]
    exact settled r' (direct_hold other direct)
  have has : ((a.hold r s).request r).socket = some s := by rw [hold_request_self]
  rw [attach_eq]
  split
  · rename_i writable
    have direct : Direct ((a.hold r s).link r) := by
      refine direct_link.mpr ⟨s, has, ?_, writable, held.alive s writable⟩
      rw [hold_socket_self]
    have call : Call (a.hold r s) r ((a.hold r s).request r).message.flush
        ((a.hold r s).request r).own := by
      refine ⟨(held.spoken r).flush direct.lossless, fun silent => absurd direct silent,
        fun _ => rfl, ?_⟩
      intro whole
      rw [State.isWhole, Bool.and_eq_true, beq_iff_eq] at whole
      have mirror := congrArg output
        ((held.spoken r).mirror direct.lossless)
      rw [behind_output, ← whole.2, self_eq_append_right] at mirror
      exact ⟨whole.1, mirror, rfl⟩
    exact ⟨call.wired held, call.settled' others, call.placed placed'⟩
  rename_i closed
  refine ⟨held, ?_, placed'⟩
  intro r' direct
  by_cases same : r' = r
  · subst same
    obtain ⟨s', has', -, writable, -⟩ := direct_link.mp direct
    obtain rfl : s = s' := some.inj (has.symm.trans has')
    exact absurd writable closed
  · exact others r' same direct

end State

end IoJs.Agent
