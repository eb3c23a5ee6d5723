import IoJs.Http.Server

/-!
# Pipelining

The responses of a connection take their turns in the order of their requests: those before the one
that has the connection are done, and those behind it wait (`Holding`). A response that is done has
written what it would have written with the connection to itself; one that waits holds it, and
writes it when its turn comes.
-/

namespace IoJs.Http.Server

open IoJs.Stream IoJs.RegExp List Option
open IoJs.Http.OutgoingMessage
open Function (update update_of_ne update_self)

namespace Connection

variable {env : Environment} {c c' : Connection} {k r : Nat}
  {result alone : OutgoingMessage × List Piece}
variable {x : Response} {encoding : Option JSString} {data : Option Data}
  {f : OutgoingMessage → OutgoingMessage} {n : Nat}

/-! ## A response -/

/-- What a response has written, and what it holds, is what it would have written. -/
structure Faithful (x : Response) : Prop where
  own : x.own = x.message.holding []
  said : x.passed ++ x.message.output = x.said

/-- A response that waits -/
structure Queued (x : Response) : Prop where
  detached : x.attached = false
  silent : x.passed = []
  faithful : Faithful x
  pending : Pending x.message

/-- A response that is over -/
structure Done (x : Response) : Prop where
  detached : x.attached = false
  finished : x.message.finished = true
  own : x.own.finished = true
  whole : x.passed = x.said

/-- A response after a call -/
def called (x : Response) (result alone : OutgoingMessage × List Piece) : Response :=
  { x with
    message := result.1
    passed := x.passed ++ result.2
    own := alone.1
    said := x.said ++ alone.2 }

theorem Faithful.called (faithful : Faithful x)
    (follows : Follows x.message.output result alone) : Faithful (called x result alone) := by
  refine ⟨follows.same, ?_⟩
  have produced := follows.produced
  rw [OutgoingMessage.produced] at produced
  simp only [Connection.called]
  rw [append_assoc, produced, ← append_assoc, faithful.said]

/-- What a call of a response may do -/
structure Call (link : Option Link) (x : Response) (result alone : OutgoingMessage × List Piece) :
    Prop where
  follows : Faithful x → Follows x.message.output result alone
  silent : ¬Direct link → result.2 = []
  direct : Direct link → x.message.output = [] → result.1.output = []
  pending : link = none → Pending x.message → Pending result.1
  done : Done x → result.1.finished = true ∧ result.2 = [] ∧ alone.1.finished = true ∧ alone.2 = []

theorem Call.queued (call : Call none x result alone) (queued : Queued x) :
    Queued (called x result alone) where
  detached := queued.detached
  silent := by
    have silent : result.2 = [] := by
      refine call.silent ?_
      rintro ⟨l, ⟨⟩, -⟩
    simp [called, queued.silent, silent]
  faithful := queued.faithful.called (call.follows queued.faithful)
  pending := call.pending rfl queued.pending

theorem Call.done' {link : Option Link} (call : Call link x result alone)
    (done : Done x) : Done (called x result alone) := by
  obtain ⟨finished, nothing, finished', nothing'⟩ := call.done done
  refine ⟨done.detached, finished, finished', ?_⟩
  simp [called, nothing, nothing', done.whole]

/-! ## Whose turn it is -/

/-- Those before a response are done; nobody has the connection. -/
structure Between (c : Connection) (k : Nat) : Prop where
  count : k ≤ c.count
  free : c.httpMessage = none
  writable : c.writable = true
  fine : c.failure = none
  done : ∀ r < k, Done (c.response r)
  queued : ∀ r < c.count, k ≤ r → Queued (c.response r)
  incoming : c.incoming = List.range' k (c.count - k)
  wire : c.wire = (List.range k).flatMap fun r => (c.response r).passed

/-- Those before a response are done; it has the connection, and holds nothing. -/
structure Holding (c : Connection) (k : Nat) : Prop where
  count : k < c.count
  message : c.httpMessage = some k
  writable : c.writable = true
  fine : c.failure = none
  attached : (c.response k).attached = true
  empty : (c.response k).message.output = []
  faithful : Faithful (c.response k)
  done : ∀ r < k, Done (c.response r)
  queued : ∀ r < c.count, k < r → Queued (c.response r)
  outgoing : c.outgoing = List.range' (k + 1) (c.count - (k + 1))
  incoming : c.incoming = List.range' k (c.count - k)
  wire : c.wire = (List.range (k + 1)).flatMap fun r => (c.response r).passed

/-- What holds of a connection at any time -/
inductive Ordered (c : Connection) : Prop where
  | idle (between : Between c c.count) (outgoing : c.outgoing = [])
  | busy {k : Nat} (holding : Holding c k) (unfinished : (c.response k).message.finished = false)

theorem Ordered.new : Ordered .new := by
  refine .idle ⟨Nat.le_refl 0, rfl, rfl, rfl, ?_, ?_, rfl, rfl⟩ rfl
  · exact fun r less => absurd less (Nat.not_lt_zero r)
  · exact fun r less => absurd less (Nat.not_lt_zero r)

/-- Some response closes the connection. -/
def Closing (c : Connection) : Prop := ∃ r < c.count, (c.response r).message.last = true

section

variable (r : Nat) (result alone : OutgoingMessage × List Piece) (c : Connection)

theorem response_pass_self : (c.pass r result alone).response r = called (c.response r)
    result alone :=
  update_self _ _ _

theorem response_pass_of_ne
    {r' : Nat} (other : r' ≠ r) : (c.pass r result alone).response r' = c.response r' :=
  update_of_ne other _ _

theorem wire_pass : (c.pass r result alone).wire = c.wire ++ result.2 := rfl

end

theorem link_of_detached (detached : (c.response r).attached = false) : c.link r = none := by
  rw [link, detached]
  rfl

theorem lossless_link (c : Connection) (r : Nat) : Lossless (c.link r) := by
  rw [link]
  split
  · rintro l ⟨⟩
    rfl
  · exact .none

theorem Holding.direct (holding : Holding c k) : Direct (c.link k) := by
  refine ⟨_, if_pos holding.attached, ?_, holding.writable, rfl⟩
  simp [holding.message]

/-! ## A call -/

theorem flatMap_passed {rs : List Nat} (others : ∀ r' ∈ rs, r' ≠ r) :
    (rs.flatMap fun r' => ((c.pass r result alone).response r').passed) =
      rs.flatMap fun r' => (c.response r').passed := by
  refine flatMap_congr fun r' mem => ?_
  rw [response_pass_of_ne _ _ _ _ (others r' mem)]

theorem flatMap_passed_of_silent (silent : result.2 = []) (rs : List Nat) :
    (rs.flatMap fun r' => ((c.pass r result alone).response r').passed) =
      rs.flatMap fun r' => (c.response r').passed := by
  refine flatMap_congr fun r' _ => ?_
  by_cases same : r' = r
  · subst same
    rw [response_pass_self]
    simp [called, silent]
  · rw [response_pass_of_ne _ _ _ _ same]

theorem pass_done (call : Call (c.link r) (c.response r) result alone)
    (done : ∀ r' < k, Done (c.response r')) :
    ∀ r' < k, Done ((c.pass r result alone).response r') := by
  intro r' before
  by_cases same : r' = r
  · subst same
    rw [response_pass_self]
    exact call.done' (done r' before)
  rw [response_pass_of_ne _ _ _ _ same]
  exact done r' before

theorem pass_queued (call : Call (c.link r) (c.response r) result alone) {waits : Nat → Prop}
    (queued : ∀ r' < c.count, waits r' → Queued (c.response r')) :
    ∀ r' < c.count, waits r' → Queued ((c.pass r result alone).response r') := by
  intro r' less waits'
  have here := queued r' less waits'
  by_cases same : r' = r
  · subst same
    rw [response_pass_self]
    rw [link_of_detached here.detached] at call
    exact call.queued here
  rw [response_pass_of_ne _ _ _ _ same]
  exact here

theorem Between.pass (between : Between c k)
    (call : Call (c.link r) (c.response r) result alone) (less : r < c.count) :
    Between (c.pass r result alone) k := by
  have detached : (c.response r).attached = false := by
    by_cases before : r < k
    · exact (between.done r before).detached
    · exact (between.queued r less (Nat.not_lt.mp before)).detached
  have silent : result.2 = [] := by
    refine call.silent ?_
    rw [link_of_detached detached]
    rintro ⟨l, ⟨⟩, -⟩
  refine ⟨between.count, between.free, between.writable, between.fine, pass_done call between.done,
    pass_queued call between.queued, between.incoming, ?_⟩
  simp [flatMap_passed_of_silent silent, ← between.wire, wire_pass, silent]

theorem Holding.pass (holding : Holding c k)
    (call : Call (c.link r) (c.response r) result alone) (less : r < c.count) :
    Holding (c.pass r result alone) k := by
  have done := pass_done call holding.done
  have queued := pass_queued call holding.queued
  by_cases same : r = k
  · subst same
    have direct := holding.direct
    refine ⟨holding.count, holding.message, holding.writable, holding.fine, ?_, ?_,
      ?_, done, queued,
      holding.outgoing, holding.incoming, ?_⟩
    · rw [response_pass_self]
      exact holding.attached
    · rw [response_pass_self]
      exact call.direct direct holding.empty
    · rw [response_pass_self]
      exact holding.faithful.called (call.follows holding.faithful)
    have others : ∀ r' ∈ List.range r, r' ≠ r := fun r' mem => Nat.ne_of_lt (mem_range.mp mem)
    have wire := holding.wire
    rw [range_succ, flatMap_append, flatMap_singleton] at wire ⊢
    rw [flatMap_passed others, response_pass_self, wire_pass, wire]
    simp [called]
  have detached : (c.response r).attached = false := by
    by_cases before : r < k
    · exact (holding.done r before).detached
    · exact (holding.queued r less (by omega)).detached
  have silent : result.2 = [] := by
    refine call.silent ?_
    rw [link_of_detached detached]
    rintro ⟨l, ⟨⟩, -⟩
  have kept : (c.pass r result alone).response k = c.response k :=
    response_pass_of_ne _ _ _ _ (Ne.symm same)
  refine ⟨holding.count, holding.message, holding.writable, holding.fine, ?_, ?_, ?_, done, queued,
    holding.outgoing, holding.incoming, ?_⟩
  · rw [kept]
    exact holding.attached
  · rw [kept]
    exact holding.empty
  · rw [kept]
    exact holding.faithful
  · simp [flatMap_passed_of_silent silent, ← holding.wire, wire_pass, silent]

/-! ## Whose turn comes next -/

/-- A response that waits is assigned the connection. -/
def take (r : Nat) (c : Connection) : Connection :=
  { c with
    httpMessage := some r
    response := update c.response r { c.response r with attached := true } }

theorem flush_follows (m : OutgoingMessage) : Follows m.output m.flush (m.holding [], []) :=
  ⟨rfl, rfl⟩

/-- The next response takes the connection when the one before is done. -/
theorem Between.take (between : Between c k) (more : k < c.count)
    (outgoing : c.outgoing = List.range' (k + 1) (c.count - (k + 1))) :
    Holding ((c.take k).pass k (c.response k).message.flush ((c.response k).own, [])) k := by
  have queued := between.queued k more (Nat.le_refl k)
  have self : (c.take k).response k = { c.response k with attached := true } := update_self _ _ _
  have others {r : Nat} (other : r ≠ k) : (c.take k).response r = c.response r :=
    update_of_ne other _ _
  refine ⟨more, rfl, between.writable, between.fine, ?_, ?_, ?_, ?_, ?_, outgoing, between.incoming,
    ?_⟩
  · rw [response_pass_self, self]
    rfl
  · rw [response_pass_self]
    rfl
  · have faithful : Faithful ((c.take k).response k) := by
      rw [self]
      exact ⟨queued.faithful.own, queued.faithful.said⟩
    rw [response_pass_self]
    refine faithful.called ?_
    rw [self, queued.faithful.own]
    exact flush_follows _
  · intro r before
    rw [response_pass_of_ne _ _ _ _ (Nat.ne_of_lt before), others (Nat.ne_of_lt before)]
    exact between.done r before
  · intro r less behind
    rw [response_pass_of_ne _ _ _ _ (Nat.ne_of_gt behind), others (Nat.ne_of_gt behind)]
    exact between.queued r less (Nat.le_of_lt behind)
  have wire : (c.take k).wire = c.wire := rfl
  have before : ∀ r ∈ List.range k, r ≠ k := fun r mem => Nat.ne_of_lt (mem_range.mp mem)
  have same : ((List.range k).flatMap fun r => ((c.take k).response r).passed) =
      (List.range k).flatMap fun r => (c.response r).passed := by
    refine flatMap_congr fun r mem => ?_
    rw [others (before r mem)]
  rw [range_succ, flatMap_append, flatMap_singleton, flatMap_passed before, same,
    response_pass_self, self, wire_pass, wire, between.wire]
  simp [called, queued.silent]

theorem assignSocket_eq (onPrefinish : Nat → Connection → Except Failure Connection)
    (free : c.httpMessage = none) (writable : c.writable = true) (r : Nat) :
    c.assignSocket onPrefinish r =
      let d := (c.take r).pass r (c.response r).message.flush ((c.response r).own, [])
      if (d.response r).message.finished then d.finish onPrefinish r else .ok d := by
  have self : (c.take r).response r = { c.response r with attached := true } := update_self _ _ _
  rw [assignSocket, if_neg (by rw [free]; decide)]
  change (c.take r).flush onPrefinish r = _
  rw [flush, if_pos ⟨by rw [self], writable⟩, self]

theorem Holding.detach (holding : Holding c k) (finished : (c.response k).message.finished = true) :
    ∃ d, ({ c with incoming := c.incoming.tail }.detachSocket k) = .ok d ∧ Between d (k + 1) ∧
      d.count = c.count ∧ d.outgoing = c.outgoing ∧
        ∀ r, (d.response r).message = (c.response r).message := by
  have passed (r : Nat) : (update c.response k { c.response k with attached := false } r).passed =
      (c.response r).passed := by
    by_cases same : r = k
    · subst same
      rw [update_self]
    · rw [update_of_ne same]
  refine ⟨_, if_pos holding.message,
    ⟨holding.count, rfl, holding.writable, holding.fine, ?_, ?_, ?_,
    ?_⟩, rfl, rfl, ?_⟩
  · intro r before
    by_cases same : r = k
    · subst same
      have said := holding.faithful.said
      rw [holding.empty, append_nil] at said
      simp only [update_self]
      refine ⟨rfl, finished, ?_, said⟩
      rw [holding.faithful.own]
      exact finished
    simp only [update_of_ne same]
    exact holding.done r (by omega)
  · intro r less behind
    have other : r ≠ k := by omega
    simp only [update_of_ne other]
    exact holding.queued r less behind
  · have more := holding.count
    have length : c.count - k = c.count - (k + 1) + 1 := by omega
    simp only [holding.incoming, length, range'_succ, tail_cons]
  · simp only [passed]
    exact holding.wire
  · grind

theorem Holding.resOnFinish_eq (holding : Holding c k) {d : Connection}
    (detached : { c with incoming := c.incoming.tail }.detachSocket k = .ok d) (queue : List Nat) :
    Connection.resOnFinish queue k c =
      if (d.response k).message.last then .ok { d with writable := false }
      else
        match queue with
        | [] => .ok d
        | m :: rest =>
          { d with outgoing := rest }.assignSocket (Connection.resOnFinish rest) m := by
  have more := holding.count
  have length : c.count - k = c.count - (k + 1) + 1 := by omega
  have first : ¬(c.incoming ≠ [] ∧ c.incoming.head? ≠ some k) := by
    simp [holding.incoming, length, range'_succ, List.head?_cons]
  cases queue with
  | nil | cons =>
    rw [Connection.resOnFinish, if_neg first, detached]
    rfl

/-- **The end of a response**: the next one gets the connection, and if it has ended before, the one
behind it, until one is found that goes on. -/
theorem Holding.resOnFinish {queue : List Nat} (holding : Holding c k)
    (finished : (c.response k).message.finished = true)
    (waiting : queue = List.range' (k + 1) (c.count - (k + 1))) :
    ∃ c', Connection.resOnFinish queue k c = .ok c' ∧ (Ordered c' ∨ Closing c') := by
  induction queue generalizing c k with
  | nil =>
    obtain ⟨d, detached, between, count, outgoing, messages⟩ := holding.detach finished
    rw [holding.resOnFinish_eq detached]
    have more := holding.count
    have none : c.count - (k + 1) = 0 := range'_eq_nil_iff.mp waiting.symm
    have all : k + 1 = d.count := by omega
    split
    · rename_i last
      exact ⟨_, rfl, .inr ⟨k, count ▸ more, last⟩⟩
    rw [all] at between
    refine ⟨d, rfl, .inl (.idle between ?_)⟩
    simp [outgoing, holding.outgoing, none]
  | cons m rest ih =>
    obtain ⟨d, detached, between, count, outgoing, messages⟩ := holding.detach finished
    rw [holding.resOnFinish_eq detached]
    have length := congrArg List.length waiting
    rw [length_cons, length_range'] at length
    have length' : c.count - (k + 1) = c.count - (k + 1 + 1) + 1 := by omega
    rw [length', range'_succ, List.cons.injEq] at waiting
    obtain ⟨rfl, waiting⟩ := waiting
    split
    · rename_i last
      exact ⟨_, rfl, .inr ⟨k, count ▸ holding.count, last⟩⟩
    have more : k + 1 < d.count := by omega
    have next : Between { d with outgoing := rest } (k + 1) :=
      ⟨between.count, between.free, between.writable, between.fine, between.done,
        between.queued, between.incoming, between.wire⟩
    have taken := next.take more (by rw [waiting, ← count])
    have result := assignSocket_eq (Connection.resOnFinish rest) next.free next.writable (k + 1)
    simp only
    rw [result]
    simp only
    split
    · rename_i finished'
      rw [Connection.finish, if_pos taken.attached]
      exact ih taken finished' (by rw [waiting, ← count]; rfl)
    rename_i unfinished
    exact ⟨_, rfl, .inl (.busy taken (Bool.eq_false_iff.mpr unfinished))⟩

/-! ## The calls of a handler -/

theorem Ordered.pass (ordered : Ordered c) (call : Call (c.link r) (c.response r) result alone)
    (less : r < c.count) (kept : result.1.finished = (c.response r).message.finished) :
    Ordered (c.pass r result alone) := by
  cases ordered with
  | idle between outgoing => exact .idle (between.pass call less) outgoing
  | @busy k holding unfinished =>
    refine .busy (holding.pass call less) ?_
    by_cases same : k = r
    · subst same
      rw [response_pass_self]
      exact kept.trans unfinished
    rw [response_pass_of_ne _ _ _ _ same]
    exact unfinished

theorem call_write (env : Environment) (c : Connection) (r : Nat) {chunk : Data}
    (fits : (c.response r).message.WriteFits env (c.link r) chunk encoding) :
    Call (c.link r) (c.response r)
      ((c.response r).message.write (c.link r) (implicitHeader env (c.link r)) chunk encoding)
      ((c.response r).own.write (some .open_) (implicitHeader env (some .open_)) chunk
        encoding) where
  follows faithful := by
    rw [faithful.own]
    exact write_follows (lossless_link c r) env fits
  silent held := write_silent held (heads_implicitHeader env _) chunk encoding _
  direct direct empty := write_direct direct (heads_implicitHeader env _) chunk encoding empty
  pending none pending := by
    rw [none]
    exact pending.write env chunk encoding
  done done := by
    rw [write_of_finished _ _ _ _ done.finished, write_of_finished _ _ _ _ done.own]
    exact ⟨done.finished, rfl, done.own, rfl⟩

theorem call_end (env : Environment) (c : Connection) (r : Nat)
    (unfinished : (c.response r).message.finished = false)
    (fits : (c.response r).message.EndFits env (c.link r) data encoding) :
    Call (c.link r) (c.response r)
      ((c.response r).message.end_ (c.link r) (implicitHeader env (c.link r)) data encoding)
      ((c.response r).own.end_ (some .open_) (implicitHeader env (some .open_)) data
        encoding) where
  follows faithful := by
    rw [faithful.own]
    exact end_follows (lossless_link c r) env fits
  silent held := end_silent held (heads_implicitHeader env _) data encoding _
  direct direct empty := end_direct direct (heads_implicitHeader env _) data encoding empty
  pending none pending := by
    rw [none]
    exact (pending.end_ env data encoding).1
  done done := by
    have finished := done.finished
    simp [unfinished] at finished

/-- A change of a message that has nothing to do with what it sends -/
structure Aside (f : OutgoingMessage → OutgoingMessage) : Prop where
  held : ∀ m : OutgoingMessage, f (m.holding []) = (f m).holding []
  output : ∀ m, (f m).output = m.output
  finished : ∀ m, (f m).finished = m.finished
  header : ∀ m, (f m).header = m.header
  headerSent : ∀ m, (f m).headerSent = m.headerSent

theorem Aside.call (aside : Aside f) (link : Option Link)
    (x : Response) : Call link x (f x.message, []) (f x.own, []) where
  follows faithful := by
    constructor
    · rw [faithful.own]
      exact aside.held x.message
    · simpa [OutgoingMessage.produced] using aside.output x.message
  silent _ := rfl
  direct _ empty := (aside.output x.message).trans empty
  pending _ pending := by
    constructor
    · rw [headerText, aside.header]
      exact pending.header
    rw [aside.headerSent, aside.output]
    exact pending.output
  done done :=
    ⟨(aside.finished x.message).trans done.finished, rfl,
     (aside.finished x.own).trans done.own, rfl⟩

theorem Ordered.change (ordered : Ordered c)
    (aside : Aside f) (less : r < c.count) : Ordered (c.change r f) :=
  ordered.pass (aside.call _ _) less (aside.finished _)

theorem aside_setHeader (env : Environment) (name : JSString) (value : Value) :
    Aside fun m => (m.setHeader env name value).getD m := by
  have cases_ (m : OutgoingMessage) : ((m.setHeader env name value).getD m) = { m with
        headers := ((m.setHeader env name value).getD m).headers
        removedHeader := ((m.setHeader env name value).getD m).removedHeader } := by
    rw [OutgoingMessage.setHeader]
    split
    · rfl
    · rfl
  refine ⟨?_, ?_, ?_, ?_, ?_⟩
  · intro m
    rw [OutgoingMessage.setHeader, OutgoingMessage.setHeader]
    by_cases stored : m.header.isSome = true
    · rw [if_pos stored, if_pos (show (m.holding []).header.isSome = true from stored)]
      rfl
    rw [if_neg stored, if_neg (show ¬(m.holding []).header.isSome = true from stored)]
    rfl
  · intro m
    rw [cases_]
  · intro m
    rw [cases_]
  · intro m
    rw [cases_]
  intro m
  rw [cases_]

def continuePiece : Piece := { data := .string continueText, encoding := some (js "ascii") }

theorem writeContinue_eq (link : Option Link) (m : OutgoingMessage) :
    m.writeContinue link = ({ (m.writeRaw link continuePiece).1 with sent100 := true },
      (m.writeRaw link continuePiece).2) := rfl

theorem call_writeContinue (c : Connection) (r : Nat)
    (unfinished : (c.response r).message.finished = false) :
    Call (c.link r) (c.response r) ((c.response r).message.writeContinue (c.link r))
      ((c.response r).own.writeContinue (some .open_)) where
  follows faithful := by
    have follows := writeRaw_follows (lossless_link c r) continuePiece (c.response r).message
    rw [faithful.own, writeContinue_eq, writeContinue_eq]
    refine ⟨?_, follows.produced⟩
    exact congrArg (fun m : OutgoingMessage => { m with sent100 := true }) follows.same
  silent held := by
    rw [writeContinue_eq]
    exact writeRaw_silent held _ _
  direct direct empty := by
    rw [writeContinue_eq]
    exact writeRaw_direct direct (.inl empty)
  pending none pending := by
    rw [none, writeContinue_eq]
    have some_ : continuePiece.data.length ≠ 0 := by decide
    refine ⟨?_, fun _ => writeRaw_pending (.inr some_)⟩
    exact pending.header
  done done := by
    have finished := done.finished
    rw [unfinished] at finished
    cases finished

/-! ## Runs -/

theorem Holding.ended (holding : Holding c k) (finished : (c.response k).message.finished = true) :
    ∃ c', c.ended k = .ok c' ∧ (Ordered c' ∨ Closing c') := by
  rw [Connection.ended, if_pos holding.empty, if_pos holding.attached, if_pos holding.message,
    Connection.finish, if_pos holding.attached]
  exact holding.resOnFinish finished holding.outgoing

theorem Ordered.end_ (ordered : Ordered c) (less : r < c.count)
    (fits : (c.response r).message.EndFits env (c.link r) data encoding) :
    ∃ c', c.end_ env r data encoding = .ok c' ∧ (Ordered c' ∨ Closing c') := by
  rw [Connection.end_]
  by_cases finished : (c.response r).message.finished = true
  · rw [if_pos finished]
    exact ⟨c, rfl, .inl ordered⟩
  have unfinished := Bool.eq_false_iff.mpr finished
  have call := call_end env c r unfinished fits
  rw [if_neg finished]
  cases ordered with
  | idle between => exact absurd (between.done r less).finished finished
  | @busy k holding unfinished' =>
    have passed := holding.pass call less
    obtain before | rfl | behind := Nat.lt_trichotomy r k
    · exact absurd (holding.done r before).finished finished
    · refine passed.ended ?_
      rw [response_pass_self]
      exact end_finished _ _ _ _
    have queued := holding.queued r less behind
    have none := link_of_detached queued.detached
    rw [Connection.ended, if_neg]
    · refine ⟨_, rfl, .inl (.busy passed ?_)⟩
      rw [response_pass_of_ne _ _ _ _ (Nat.ne_of_lt behind)]
      exact unfinished'
    rw [response_pass_self]
    simpa [called, none] using (queued.pending.end_ env data encoding).2 unfinished

theorem queued_new (head : RequestHead) : Queued (.new head) where
  detached := rfl
  silent := rfl
  faithful := ⟨rfl, rfl⟩
  pending := by
    refine ⟨?_, nofun⟩
    change js "null" ≠ []
    decide

/-- One more request -/
def arrive (head : RequestHead) (c : Connection) : Connection :=
  { c with
    incoming := c.incoming ++ [c.count]
    response := update c.response c.count (.new head)
    count := c.count + 1 }

section

variable (head : RequestHead)

theorem response_arrive (c : Connection) :
    (c.arrive head).response c.count = .new head := update_self _ _ _

theorem response_arrive_of_lt (old : r < c.count) :
    (c.arrive head).response r = c.response r := update_of_ne (Nat.ne_of_lt old) _ _

theorem flatMap_arrive (old : n ≤ c.count) :
    ((List.range n).flatMap fun r => ((c.arrive head).response r).passed) =
      (List.range n).flatMap fun r => (c.response r).passed := by
  refine flatMap_congr fun r mem => ?_
  rw [response_arrive_of_lt head (Nat.lt_of_lt_of_le (mem_range.mp mem) old)]

end

theorem Between.arrive (between : Between c c.count) (head : RequestHead) :
    Between (c.arrive head) c.count := by
  have length : c.count + 1 - c.count = 1 := by omega
  refine ⟨Nat.le_succ _, between.free, between.writable, between.fine, ?_, ?_, ?_, ?_⟩
  · intro r old
    rw [response_arrive_of_lt head old]
    exact between.done r old
  · intro r less from_
    obtain rfl : r = c.count := Nat.le_antisymm (Nat.lt_succ_iff.mp less) from_
    rw [response_arrive]
    exact queued_new head
  · have incoming := between.incoming
    simp [Connection.arrive, incoming, length]
  rw [flatMap_arrive head (Nat.le_refl _)]
  exact between.wire

theorem Holding.arrive (holding : Holding c k) (head : RequestHead) :
    Holding { c.arrive head with outgoing := c.outgoing ++ [c.count] } k := by
  have more := holding.count
  have kept := response_arrive_of_lt head holding.count
  refine ⟨Nat.lt_succ_of_lt more, holding.message, holding.writable, holding.fine, ?_, ?_, ?_, ?_,
    ?_, ?_, ?_, ?_⟩
  · rw [kept]
    exact holding.attached
  · rw [kept]
    exact holding.empty
  · rw [kept]
    exact holding.faithful
  · intro r before
    rw [response_arrive_of_lt head (Nat.lt_trans before more)]
    exact holding.done r before
  · intro r less behind
    by_cases last : r = c.count
    · subst last
      rw [response_arrive]
      exact queued_new head
    have old : r < c.count := Nat.lt_of_le_of_ne (Nat.lt_succ_iff.mp less) last
    rw [response_arrive_of_lt head old]
    exact holding.queued r old behind
  · have length : c.count + 1 - (k + 1) = c.count - (k + 1) + 1 := by omega
    have end_ : k + 1 + (c.count - (k + 1)) = c.count := by omega
    simp only [Connection.arrive, holding.outgoing, length, range'_1_concat, end_]
  · have length : c.count + 1 - k = c.count - k + 1 := by omega
    have end_ : k + (c.count - k) = c.count := by omega
    simp only [Connection.arrive, holding.incoming, length, range'_1_concat, end_]
  rw [flatMap_arrive head more]
  exact holding.wire

/-- What `parserOnIncoming` does about `Expect: 100-continue` -/
def expect (checkContinue : Bool) (head : RequestHead) (r : Nat) (c : Connection) : Connection :=
  if head.expectsContinue then
    let c := c.change r fun m => { m with expectContinue := true }
    if checkContinue then c else c.writeContinue r
  else c

theorem Ordered.expect (ordered : Ordered c) (less : r < c.count)
    (unfinished : (c.response r).message.finished = false) (checkContinue : Bool)
    (head : RequestHead) : Ordered (c.expect checkContinue head r) := by
  have aside : Aside fun m => { m with expectContinue := true } :=
    ⟨fun _ => rfl, fun _ => rfl, fun _ => rfl, fun _ => rfl, fun _ => rfl⟩
  have changed := ordered.change aside less
  rw [Connection.expect]
  split
  · split
    · exact changed
    refine changed.pass (call_writeContinue _ r ?_) less ?_
    · rw [Connection.change, response_pass_self]
      exact unfinished
    · rw [writeContinue_eq, writeRaw_eq]
  · exact ordered

theorem Ordered.parserOnIncoming (ordered : Ordered c) (checkContinue : Bool) (head : RequestHead) :
    ∃ c', c.parserOnIncoming checkContinue head = .ok c' ∧ Ordered c' := by
  have new : ((c.arrive head).response c.count).message.finished = false := by
    rw [response_arrive]
    rfl
  cases ordered with
  | idle between outgoing =>
    have arrived := between.arrive head
    have less : c.count < (c.arrive head).count := Nat.lt_succ_self _
    have nobody : (c.arrive head).count - (c.count + 1) = 0 := Nat.sub_self _
    have taken := arrived.take less (by rw [nobody]; exact outgoing)
    have unfinished : ((((c.arrive head).take c.count).pass c.count
        ((c.arrive head).response c.count).message.flush
          (((c.arrive head).response c.count).own, [])).response
            c.count).message.finished = false := by
      rw [response_pass_self]
      exact new
    have assigned := assignSocket_eq (Connection.resOnFinish c.outgoing) arrived.free
      arrived.writable c.count
    rw [if_neg (Bool.eq_false_iff.mp unfinished)] at assigned
    refine ⟨_, ?_, (Ordered.busy taken unfinished).expect less unfinished checkContinue head⟩
    rw [Connection.parserOnIncoming]
    refine (congrArg _ (if_neg (by rw [between.free]; decide))).trans ?_
    exact congrArg _ assigned
  | @busy k holding unfinished =>
    have arrived := holding.arrive head
    have kept : ((c.arrive head).response k).message.finished = false := by
      rw [response_arrive_of_lt head holding.count]
      exact unfinished
    refine ⟨_, ?_, (Ordered.busy arrived kept).expect (Nat.lt_succ_self _) new checkContinue head⟩
    rw [Connection.parserOnIncoming]
    exact congrArg _ (if_pos (by rw [holding.message]; rfl))

/-- No response closes the connection. -/
def keptAlive (c : Connection) : Bool :=
  (List.range c.count).all fun r => !(c.response r).message.last

theorem not_closing (keeps : c.keptAlive = true) : ¬Closing c := by
  rintro ⟨r, less, last⟩
  have kept := List.all_eq_true.mp keeps r (mem_range.mpr less)
  simp [last] at kept

/-- The body of a response does not begin with something that the header cannot be put before, while
it holds something: then the header would be put before what it holds. -/
def fits (env : Environment) (c : Connection) : Action → Bool
  | .write r chunk encoding => (c.response r).message.WriteFits env (c.link r) chunk encoding
  | .end_ r data encoding => (c.response r).message.EndFits env (c.link r) data encoding
  | _ => true

/-- One step keeps the responses in order, while the connection is kept alive. -/
theorem Ordered.step (ordered : Ordered c) {checkContinue : Bool} {action : Action}
    (fits : c.fits env action = true) (stepped : c.step env checkContinue action = some c')
    (keeps : c'.keptAlive = true) : Ordered c' := by
  cases action with
  | request head =>
    obtain ⟨d, done, ordered'⟩ := ordered.parserOnIncoming checkContinue head
    rw [Connection.step, done] at stepped
    cases stepped
    exact ordered'
  | setHeader r name value =>
    obtain ⟨less, made⟩ := ite_none_right_eq_some.mp stepped
    cases made
    exact ordered.change (aside_setHeader env name value) less
  | write r =>
    obtain ⟨less, made⟩ := ite_none_right_eq_some.mp stepped
    cases made
    refine ordered.pass (call_write env c r (of_decide_eq_true fits)) less ?_
    exact write_finished (heads_implicitHeader env _) _ _ _
  | end_ =>
    obtain ⟨less, made⟩ := ite_none_right_eq_some.mp stepped
    obtain ⟨d, done, next⟩ := ordered.end_ less (of_decide_eq_true fits)
    rw [done] at made
    cases made
    exact next.resolve_right (not_closing keeps)

/-- The first response that has not ended -/
def oldest (c : Connection) : Option Nat :=
  (List.range c.count).find? fun r => !(c.response r).message.finished

theorem oldest_eq_none (done : ∀ r < c.count, Done (c.response r)) : c.oldest = none := by
  refine List.find?_eq_none.mpr fun r mem => ?_
  rw [(done r (mem_range.mp mem)).finished]
  decide

theorem Holding.oldest (holding : Holding c k)
    (unfinished : (c.response k).message.finished = false) : c.oldest = some k := by
  have split : List.range c.count = List.range k ++ k :: List.range' (k + 1)
    (c.count - (k + 1)) := by
    have length : c.count = k + (c.count - (k + 1) + 1) := by have := holding.count; omega
    rw [range_eq_range', range_eq_range', ← range'_succ]
    conv_lhs => rw [length]
    rw [← range'_append_1, Nat.zero_add]
  refine List.find?_eq_some_iff_append.mpr ⟨?_, _, _, split, ?_⟩
  · rw [unfinished]
    rfl
  intro r mem
  rw [(holding.done r (mem_range.mp mem)).finished]
  rfl

/-- The responses whose turn has come, in the order of their requests -/
def begun (c : Connection) : List Nat := List.range (c.httpMessage.elim c.count (· + 1))

theorem flatMap_said (done : ∀ r < n, Done (c.response r)) :
    ((List.range n).flatMap fun r => (c.response r).passed) =
      (List.range n).flatMap fun r => (c.response r).said := by
  refine flatMap_congr fun r mem => ?_
  exact (done r (mem_range.mp mem)).whole

theorem Ordered.wire (ordered : Ordered c) :
    c.wire = c.begun.flatMap fun r => (c.response r).said := by
  rw [begun]
  cases ordered with
  | idle between =>
    rw [between.wire, between.free, flatMap_said between.done]
    rfl
  | @busy k holding unfinished =>
    have said := holding.faithful.said
    rw [holding.empty, append_nil] at said
    simp [holding.wire, holding.message, elim_some, range_succ, flatMap_append,
      flatMap_said holding.done, said]

/-- **Pipelining.** In every run in which no response closes the connection, and no response that
holds something begins its body with something that the header cannot be put before: no assertion
fails, the connection belongs to the first response that has not ended, and what has been written is
what the responses up to it would have written with the connection to themselves, one after the
other in the order of their requests. -/
theorem pipelining_of_run {checkContinue : Bool} (run : Library.Run (step env checkContinue)
      (fun c action => c.fits env action = true ∧
        (c.step env checkContinue action).all keptAlive = true) .new c) :
    c.failure = none ∧ c.httpMessage = c.oldest ∧
      c.wire = c.begun.flatMap fun r => (c.response r).said := by
  have ordered : Ordered c := by
    refine run.invariant Ordered .new ?_
    intro c c' action ordered allowed stepped
    have keeps := allowed.2
    rw [stepped] at keeps
    exact ordered.step allowed.1 stepped keeps
  have wire := ordered.wire
  cases ordered with
  | idle between =>
    exact ⟨between.fine, between.free.trans (oldest_eq_none between.done).symm, wire⟩
  | busy holding unfinished =>
    exact ⟨holding.fine, holding.message.trans (holding.oldest unfinished).symm, wire⟩

/-- Three requests; the last one is answered first, and the first one last. -/
theorem pipelining_of_three : ∃ c : Connection, c.count = 3 ∧ c.wire.length = 5 ∧
    c.failure = none ∧ c.httpMessage = c.oldest ∧
      c.wire = c.begun.flatMap fun r => (c.response r).said := by
  obtain ⟨c, run, count, length⟩ := Library.Run.exists_of_exec (step .ascii false)
    (fun c action => c.fits .ascii action = true ∧
      (c.step .ascii false action).all keptAlive = true) .new
    (fun c => c.count = 3 ∧ c.wire.length = 5)
    [.request ⟨false, true, false, true, false⟩, .request ⟨false, true, false, true, true⟩,
      .end_ 1 (some (.string (js "b"))) none, .request ⟨false, true, false, true, false⟩,
      .end_ 2 (some (.buffer [0x63])) none, .end_ 0 none none]
    (by decide +kernel)
  exact ⟨c, count, length, pipelining_of_run run⟩

/-- A response that waits says `100 Continue`, and ends with a Buffer: its header goes first. -/
theorem misplaced_continue : ¬∀ (env : Environment) (checkContinue : Bool) (c : Connection),
    Library.Run (step env checkContinue)
        (fun c action => (c.step env checkContinue action).all keptAlive = true) .new c →
      c.failure = none ∧ c.httpMessage = c.oldest ∧
        c.wire = c.begun.flatMap fun r => (c.response r).said := by
  intro claim
  obtain ⟨c, run, differs⟩ := Library.Run.exists_of_exec (step .ascii false)
    (fun c action => (c.step .ascii false action).all keptAlive = true) .new
    (fun c => c.wire ≠ c.begun.flatMap fun r => (c.response r).said)
    [.request ⟨false, true, false, true, false⟩, .request ⟨false, true, false, true, true⟩,
      .end_ 1 (some (.buffer [0x78])) none, .end_ 0 none none]
    (by decide +kernel)
  exact differs (claim .ascii false c run).2.2

end Connection

end IoJs.Http.Server
