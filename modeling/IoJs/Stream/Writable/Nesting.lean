import Mathlib.Data.List.Chain
import IoJs.Stream.Writable.Effect

/-!
# How calls are nested

Which call can stand directly above which other one. `doWrite` has called `_write`
or `_writev` and nothing else, `clearBuffer` only calls `doWrite`, and `onwrite`
only `clearBuffer`; user code can call anything. So while `clearBuffer` runs, user
code runs only inside of the `_write` or `_writev` that it called.
-/

namespace IoJs.Stream.Writable

open IoJs.Library List

variable {Obj : Type} {env : Environment} {c c' : Config Obj} {a : Action Obj}

/-- The body of `_write` or `_writev`. -/
def Frame.isImplementation : Frame Obj → Bool
  | .user (.implementation _) => true
  | _ => false

/-- Is an implementation anywhere on the stack? -/
def Config.insideImplementation (c : Config Obj) : Bool := c.stack.any Frame.isImplementation

/-- `above` can stand directly above `below`. -/
def Frame.Above (above below : Frame Obj) : Prop :=
  match below with
  | .doWrite => above.isImplementation = true
  | .clearFast => above = .doWrite
  | .clearSlow _ => above = .doWrite
  | .onwrite _ _ _ => above.clear?.isSome = true
  | _ => above.isImplementation = false

/-- Calls are nested as the code nests them. -/
def Nested (stack : List (Frame Obj)) : Prop := stack.IsChain Frame.Above

/-- A frame with no constraint on what stands above it, except that
implementations are only called by `doWrite`. -/
def Frame.plain : Frame Obj → Bool
  | .doWrite => false
  | .clearFast => false
  | .clearSlow _ => false
  | .onwrite _ _ _ => false
  | _ => true

theorem Frame.above_plain {above below : Frame Obj} (plain : below.plain = true)
    (other : above.isImplementation = false) : above.Above below := by
  cases below <;> first | exact other | cases plain

namespace Nested

variable {frame below : Frame Obj} {stack rest : List (Frame Obj)}

theorem tail (nested : Nested (frame :: rest)) : Nested rest := List.IsChain.tail nested

theorem push (nested : Nested stack) (plain : stack.head?.all Frame.plain = true)
    (other : frame.isImplementation = false) : Nested (frame :: stack) := by
  cases stack with
  | nil => exact .singleton _
  | cons => exact .cons_cons (Frame.above_plain (by simpa using plain) other) nested

theorem pushOn (nested : Nested (below :: rest)) (above : frame.Above below) :
    Nested (frame :: below :: rest) := .cons_cons above nested

/-- Below a frame other than an implementation, `doWrite` and `clearBuffer` stands user code
or a call that may have made any other. -/
theorem plain_below (nested : Nested (frame :: rest)) (other : frame.isImplementation = false)
    (notWrite : frame ≠ .doWrite) (notClear : frame.clear? = none) :
    rest.head?.all Frame.plain = true := by
  cases rest with
  | nil => rfl
  | cons below rest =>
    have above := nested.rel
    cases below with
    | doWrite => rw [Frame.Above, other] at above; cases above
    | clearFast | clearSlow => exact absurd above notWrite
    | onwrite => rw [Frame.Above, notClear] at above; cases above
    | _ => rfl

theorem plain_of_turn {c : Config Obj} (turn : c.userTurn = true) :
    c.stack.head?.all Frame.plain = true := by
  simp only [Config.userTurn] at turn
  split at turn
  · rename_i empty; rw [empty]; rfl
  · rename_i top; rw [top]; rfl
  · cases turn

end Nested

section

variable (c : Config Obj) (cb : Option Nat)

theorem endWritableEnd_state : (endWritableEnd c cb).state = { c.state with ended := true } := by
  cases cb with
  | none => rfl
  | some =>
    simp only [endWritableEnd]
    split <;> rfl

@[simp] theorem endWritableEnd_stack : (endWritableEnd c cb).stack = c.stack := by
  cases cb with
  | none => rfl
  | some =>
    simp only [endWritableEnd]
    split <;> rfl

@[simp] theorem endWritableEnd_trace : (endWritableEnd c cb).trace = c.trace := by
  cases cb with
  | none => rfl
  | some =>
    simp only [endWritableEnd]
    split <;> rfl

end

/-! ## The calls that a function leaves in progress -/

/-- The call of a write callback, or the emission of an event other than `'finish'`. -/
def Event.minor : Event Obj → Bool
  | .called _ _ => true
  | .emitted .finish => false
  | .emitted _ => true
  | _ => false

/-- A call that neither hands anything over nor ends or finishes the stream. -/
def Frame.minor : Frame Obj → Bool
  | .user (.implementation _) => false
  | .user _ => true
  | .refuse _ => true
  | .afterWrite _ => true
  | .callbacks _ _ => true
  | .onwriteError => true
  | .finishMaybe => true
  | _ => false

theorem Frame.plain_of_minor {frame : Frame Obj} (minor : frame.minor = true) :
    frame.plain = true ∧ frame.isImplementation = false := by
  cases frame with
  | user code =>
    cases code with
    | implementation => cases minor
    | _ => exact ⟨rfl, rfl⟩
  | doWrite | clearFast | clearSlow | onwrite => cases minor
  | _ => exact ⟨rfl, rfl⟩

/-- How far the stream has ended. -/
def WritableState.phase (state : WritableState) : Bool × Bool × Bool :=
  (state.ending, state.ended, state.finished)

/-- A tick other than an `afterWrite`. -/
def Tick.minor : Tick → Bool
  | .afterWrite _ _ => false
  | _ => true

/-- `needDrain` is set wherever a `'drain'` is owed after the events, if it was before them. -/
def Owes (c : Config Obj) (events : List (Event Obj)) (c' : Config Obj) : Prop :=
  ∀ owed : Bool, (owed = true → c.state.needDrain = true) →
    events.foldl owe owed = true → c'.state.needDrain = true

namespace Owes

variable {c c' c'' : Config Obj} {events events' : List (Event Obj)} {event : Event Obj}

theorem of_eq (same : c'.state.needDrain = c.state.needDrain) : Owes c [] c' :=
  fun _ before owed => same.trans (before owed)

theorem trans (first : Owes c events c') (second : Owes c' events' c'') :
    Owes c (events ++ events') c'' := by
  intro owed before after
  rw [foldl_append] at after
  exact second _ (first owed before) after

theorem of_event (same : c'.state.needDrain = c.state.needDrain)
    (none : ∀ owed, owe owed event = true → owed = true) : Owes c [event] c' :=
  fun owed before after => same.trans (before (none owed after))

theorem of_minor (same : c'.state.needDrain = c.state.needDrain)
    (minor : event.minor = true) : Owes c [event] c' := by
  refine of_event same fun owed after => ?_
  cases event with
  | called => exact after
  | emitted emission =>
    cases emission with
    | drain => cases after
    | _ => exact after
  | _ => cases minor

end Owes

/-- The function called on `c` leaves minor calls in progress, queues minor ticks and
logs minor events, and does not end or finish the stream. -/
structure Adds (c c' : Config Obj) : Prop where
  stack : ∃ frames, c'.stack = frames ++ c.stack ∧ ∀ frame ∈ frames, frame.minor = true
  trace : ∃ events, c'.trace = c.trace ++ events ∧ (∀ event ∈ events, event.minor = true) ∧
    Owes c events c'
  ticks : ∃ ticks, c'.ticks = c.ticks ++ ticks ∧ ∀ tick ∈ ticks, tick.minor = true
  phase : c'.state.phase = c.state.phase

namespace Adds

variable {c c' : Config Obj}

theorem of_eq (same : c'.stack = c.stack) (silent : c'.trace = c.trace)
    (ticks : c'.ticks = c.ticks) (phase : c'.state.phase = c.state.phase)
    (drain : c'.state.needDrain = c.state.needDrain) : Adds c c' where
  stack := ⟨[], same, nofun⟩
  trace := ⟨[], by rw [silent, append_nil], nofun, .of_eq drain⟩
  ticks := ⟨[], by rw [ticks, append_nil], nofun⟩
  phase := phase

theorem refl (c : Config Obj) : Adds c c := of_eq rfl rfl rfl rfl rfl

theorem trans {c'' : Config Obj} (first : Adds c c') (second : Adds c' c'') : Adds c c'' where
  stack := by
    obtain ⟨frames, same, minor⟩ := first.stack
    obtain ⟨frames', same', minor'⟩ := second.stack
    refine ⟨frames' ++ frames, by rw [same', same, append_assoc], fun frame member => ?_⟩
    exact (mem_append.mp member).elim (minor' frame) (minor frame)
  trace := by
    obtain ⟨events, same, minor, owes⟩ := first.trace
    obtain ⟨events', same', minor', owes'⟩ := second.trace
    refine ⟨events ++ events', by rw [same', same, append_assoc], fun event member => ?_,
      owes.trans owes'⟩
    exact (mem_append.mp member).elim (minor event) (minor' event)
  ticks := by
    obtain ⟨ticks, same, minor⟩ := first.ticks
    obtain ⟨ticks', same', minor'⟩ := second.ticks
    refine ⟨ticks ++ ticks', by rw [same', same, append_assoc], fun tick member => ?_⟩
    exact (mem_append.mp member).elim (minor tick) (minor' tick)
  phase := second.phase.trans first.phase

section

variable (c : Config Obj)

theorem set {f : WritableState → WritableState} (phase : (f c.state).phase = c.state.phase)
    (drain : (f c.state).needDrain = c.state.needDrain) : Adds c (c.set f) :=
  of_eq rfl rfl rfl phase drain

theorem pay : Adds c c.pay := set c rfl rfl

theorem push (frame : Frame Obj) (minor : frame.minor = true) : Adds c (c.push frame) where
  stack := ⟨[frame], rfl, by simpa using minor⟩
  trace := ⟨[], by simp, nofun, .of_eq rfl⟩
  ticks := ⟨[], by simp, nofun⟩
  phase := rfl

theorem nextTick (tick : Tick) (minor : tick.minor = true) : Adds c (c.nextTick tick) where
  stack := ⟨[], rfl, nofun⟩
  trace := ⟨[], by simp, nofun, .of_eq rfl⟩
  ticks := ⟨[tick], rfl, by simpa using minor⟩
  phase := rfl

theorem log (event : Event Obj) (minor : event.minor = true) : Adds c (c.log event) where
  stack := ⟨[], rfl, nofun⟩
  trace := ⟨[event], rfl, by simpa using minor, .of_minor rfl minor⟩
  ticks := ⟨[], by simp, nofun⟩
  phase := rfl

theorem emit (event : Emission)
    (minor : Event.minor (.emitted event : Event Obj) = true) : Adds c (c.emit event) :=
  (log c _ minor).trans (push _ (.user (.listeners event)) rfl)

theorem refuse (er : StreamError) : Adds c (refuse c er) :=
  (push c (.refuse er) rfl).trans (emit _ (.error er) rfl)

theorem callCallback (cb : Callback) (failed : Bool) : Adds c (callCallback c cb failed) := by
  cases cb with
  | write id => exact (log c (.called id failed) rfl).trans (push _ (.user (.callback id)) rfl)
  | writev ids => exact push c (.callbacks ids failed) rfl

theorem callNext (ids : List Nat) (failed : Bool) : Adds c (callNext c ids failed) := by
  cases ids with
  | nil => exact refl c
  | cons id rest =>
    have pushed := (pay c).trans (push _ (.callbacks rest failed) rfl)
    exact pushed.trans (callCallback _ (.write id) failed)

theorem drain : Adds c ((c.set fun s => { s with needDrain := false }).emit .drain) where
  stack := ⟨[.user (.listeners .drain)], rfl, by simp [Frame.minor]⟩
  trace := ⟨[.emitted .drain], rfl, by simp [Event.minor], nofun⟩
  ticks := ⟨[], by simp, nofun⟩
  phase := rfl

theorem afterWrite (finished : Bool) (cb : Callback) : Adds c (afterWrite c finished cb) := by
  have pushed : Adds c (c.push (.afterWrite cb)) := push c (.afterWrite cb) rfl
  simp only [Writable.afterWrite]
  split
  · exact pushed.trans (drain _)
  · exact pushed

theorem afterWriteEnd (cb : Callback) : Adds c (afterWriteEnd c cb) :=
  ((pay c).trans (push _ .finishMaybe rfl)).trans (callCallback _ cb false)

theorem onwriteErrorEnd : Adds c (onwriteErrorEnd c) :=
  (set c rfl rfl).trans (emit _ (.error .reported) rfl)

theorem onwriteError (sync : Bool) (cb : Callback) : Adds c (onwriteError c sync cb) := by
  cases sync with
  | true => exact (nextTick c (.onwriteError cb) rfl).trans (onwriteErrorEnd _)
  | false => exact ((pay c).trans (push _ .onwriteError rfl)).trans (callCallback _ cb true)

theorem prefinish : Adds c (prefinish c) := by
  simp only [Writable.prefinish]
  split
  · exact refl c
  · exact (set c rfl rfl).trans (emit _ .prefinish rfl)

theorem runTick (tick : Tick) : Adds c (runTick c tick) := by
  cases tick with
  | afterWrite finished cb => exact afterWrite c finished cb
  | onwriteError cb => exact (pay c).trans (callCallback _ cb true)
  | refused er => exact push c (.user (.refused er)) rfl
  | endCallback label => exact push c (.user (.endCallback label)) rfl

end

end Adds

namespace Nested

variable {c c' : Config Obj} {frame : Frame Obj} {rest : List (Frame Obj)}
variable {b : Config Obj} {a : Action Obj} {env : Environment} {stack : List (Frame Obj)}

theorem adds (nested : Nested c.stack) (plain : c.stack.head?.all Frame.plain = true)
    (adds : Adds c c') : Nested c'.stack ∧ c'.stack.head?.all Frame.plain = true := by
  obtain ⟨frames, same, known⟩ := adds.stack
  rw [same]
  clear same
  induction frames with
  | nil => exact ⟨nested, plain⟩
  | cons frame frames ih =>
    obtain ⟨nested', plain'⟩ := ih fun f member => known f (mem_cons_of_mem _ member)
    obtain ⟨isPlain, other⟩ := Frame.plain_of_minor (known frame mem_cons_self)
    exact ⟨push nested' plain' other, by simpa using isPlain⟩

theorem resumed (nested : Nested c.stack) (top : c.stack = frame :: rest)
    (other : frame.isImplementation = false) (notWrite : frame ≠ .doWrite)
    (notClear : frame.clear? = none) (adds : Adds { c with stack := rest } c') :
    Nested c'.stack := by
  rw [top] at nested
  exact (Nested.adds (c := { c with stack := rest }) nested.tail
    (nested.plain_below other notWrite notClear) adds).1

theorem doWriteOne (request : Request Obj) (nested : Nested (.doWrite :: c.stack)) :
    Nested (doWriteOne c request).stack :=
  nested.pushOn rfl

theorem cleared (frame : Frame Obj) {clear : Clear} (here : frame.clear? = some clear)
    (nested : Nested (frame :: rest)) (handover : Handover Obj) :
    Nested (.user (.implementation handover) :: .doWrite :: frame :: rest) := by
  refine (nested.pushOn ?_).pushOn rfl
  cases frame <;> first | rfl | cases here

theorem opened (nested : Nested c.stack) (prepared : Opened c a b) : Nested b.stack ∧
    ∀ frame : Frame Obj, frame.clear?.isSome = true → Nested (frame :: b.stack) := by
  have clearOther : ∀ frame : Frame Obj, frame.clear?.isSome = true →
      frame.isImplementation = false := by
    intro frame clear
    cases frame <;> first | rfl | cases clear
  cases prepared with
  | uncork turn =>
    exact ⟨nested, fun frame clear => push nested (plain_of_turn turn) (clearOther frame clear)⟩
  | end_ cb rest top =>
    rw [top] at nested
    have below := nested.plain_below rfl nofun rfl
    have pushed : Nested (.endFinal cb :: rest) := push nested.tail below rfl
    exact ⟨pushed, fun frame clear => pushed.pushOn (clearOther frame clear)⟩
  | onwrite index handover cb turn =>
    have pushed : Nested (.onwrite c.state.sync
        (needFinish (settle c index handover false).state) cb :: c.stack) :=
      push nested (plain_of_turn turn) rfl
    exact ⟨pushed, fun frame clear => pushed.pushOn clear⟩

theorem calls (nested : Nested c.stack) (turn : c.userTurn = true) (call : Calls c a b) :
    Nested b.stack ∧ b.stack.head?.all Frame.plain = true := by
  cases call with
  | write => exact ⟨nested, plain_of_turn turn⟩
  | end_ => exact ⟨push nested (plain_of_turn turn) rfl, rfl⟩

/-- Every step leaves calls nested as the code nests them. -/
theorem step (nested : Nested c.stack) (moved : Transition env c a c') : Nested c'.stack := by
  cases moved with
  | written turn calls passes done =>
    have base := nested.calls turn calls
    cases done with
    | refused er => exact (Nested.adds base.1 base.2 (.refuse _ er)).1
    | threw => exact base.1
    | buffered => exact base.1
    | direct request =>
      exact doWriteOne request (push base.1 base.2 rfl)
  | endCalled chunk encoding cb turn => exact push nested (plain_of_turn turn) rfl
  | cork turn => exact nested
  | uncorked => exact nested
  | opened prepared => exact (nested.opened prepared).1
  | flushed prepared ready done =>
    obtain ⟨base, clear⟩ := nested.opened prepared
    cases done with
    | fast => exact cleared .clearFast rfl (clear _ rfl) _
    | slow e => exact cleared (.clearSlow e) rfl (clear _ rfl) _
    | dangling => exact base
  | failed index handover cb turn =>
    exact (Nested.adds (c := settle c index handover true) nested (plain_of_turn turn)
      (.onwriteError _ _ _)).1
  | returned code rest top | refuse er rest top | doWrite rest top | clearFast rest top
  | clearSlow entry rest top | clearDangling entry next rest top | onwriteLater finished cb rest top
  | notYet rest top | endAgain cb rest top =>
    exact (top ▸ nested).tail
  | ticked tick rest empty =>
    exact (Nested.adds (c := { c with ticks := rest }) nested (by simp [empty])
      (.runTick _ tick)).1
  | clearNext entry next node rest top =>
    rw [top] at nested
    refine cleared (.clearSlow next) rfl ?_ _
    cases rest with
    | nil => exact .singleton _
    | cons below rest =>
      refine nested.tail.pushOn ?_
      have above := nested.rel
      cases below with
      | doWrite | clearFast | clearSlow => cases above
      | _ => exact above
  | onwriteNow finished cb rest top => exact nested.resumed top rfl nofun rfl (.afterWrite _ _ _)
  | afterWrite cb rest top => exact nested.resumed top rfl nofun rfl (.afterWriteEnd _ _)
  | callbacks ids failed rest top => exact nested.resumed top rfl nofun rfl (.callNext _ _ _)
  | onwriteError rest top => exact nested.resumed top rfl nofun rfl (.onwriteErrorEnd _)
  | awaits rest top need => exact nested.resumed top rfl nofun rfl (.prefinish _)
  | finishes rest top =>
    rw [top] at nested
    have pushed : Nested (.finish :: rest) :=
      push nested.tail (nested.plain_below rfl nofun rfl) rfl
    exact (Nested.adds (c := { c with stack := rest }.push .finish) pushed rfl (.prefinish _)).1
  | finish rest top =>
    rw [top] at nested
    have pushed : Nested (.user (.listeners .finish) :: rest) :=
      push nested.tail (nested.plain_below rfl nofun rfl) rfl
    exact pushed
  | endUncork cb rest top =>
    rw [top] at nested
    exact push nested.tail (nested.plain_below rfl nofun rfl) rfl
  | endFinal cb rest top =>
    rw [top] at nested
    have pushed : Nested (.endWritable cb :: rest) :=
      push nested.tail (nested.plain_below rfl nofun rfl) rfl
    exact pushed.pushOn rfl
  | endWritable cb rest top =>
    rw [endWritableEnd_stack]
    exact (top ▸ nested).tail

theorem all_plain (nested : Nested stack) (plain : stack.head?.all Frame.plain = true)
    (outside : stack.any Frame.isImplementation = false) : stack.all Frame.plain = true := by
  induction stack with
  | nil => rfl
  | cons frame stack ih =>
    rw [any_cons, Bool.or_eq_false_iff] at outside
    have isPlain : frame.plain = true := by simpa using plain
    have notWrite : frame ≠ .doWrite := by rintro rfl; cases isPlain
    have notClear : frame.clear? = none := by
      cases frame <;> first | rfl | cases isPlain
    have below := nested.plain_below outside.1 notWrite notClear
    simp [isPlain, ih nested.tail below outside.2]

theorem clears_of_plain (nested : Nested stack) (plain : stack.head?.all Frame.plain = true)
    (outside : stack.any Frame.isImplementation = false) : clears stack = [] := by
  refine filterMap_eq_nil_iff.mpr fun frame member => ?_
  have plain := List.all_eq_true.mp (nested.all_plain plain outside) frame member
  cases frame <;> first | rfl | cases plain

theorem clears_of_turn (nested : Nested c.stack) (turn : c.userTurn = true)
    (outside : c.insideImplementation = false) : clears c.stack = [] :=
  nested.clears_of_plain (plain_of_turn turn) outside

end Nested

/-! ## What a step logs -/

/-- Where the events come from that are not minor. -/
structure Logged (c : Config Obj) (a : Action Obj) (events : List (Event Obj)) : Prop where
  threw : .threw ∈ events →
    c.state.objectMode = false ∧ ∃ chunk, a.chunk? = some chunk ∧ chunk.isNullish = true
  failed : ∀ handover, .completed handover true ∈ events → ∃ index, a = .complete index true
  finish : .emitted .finish ∈ events → ∃ rest, c.stack = .finish :: rest

namespace Logged

variable {c c' b d : Config Obj} {a : Action Obj} {events events' : List (Event Obj)}

theorem nil : Logged c a [] := ⟨nofun, nofun, nofun⟩

theorem append (first : Logged c a events) (second : Logged c a events') :
    Logged c a (events ++ events') := by
  refine ⟨fun member => ?_, fun handover member => ?_, fun member => ?_⟩
  · exact (mem_append.mp member).elim first.threw second.threw
  · exact (mem_append.mp member).elim (first.failed handover) (second.failed handover)
  · exact (mem_append.mp member).elim first.finish second.finish

theorem of_minor (minor : ∀ event ∈ events, event.minor = true) : Logged c a events := by
  refine ⟨fun member => ?_, fun handover member => ?_, fun member => ?_⟩
  · cases minor _ member
  · cases minor _ member
  · cases minor _ member

theorem accepted (request : Request Obj) (ret : Bool) : Logged c a [.accepted request ret] :=
  ⟨by simp, by simp, by simp⟩

theorem handed (handover : Handover Obj) : Logged c a [.handed handover] :=
  ⟨by simp, by simp, by simp⟩

end Logged

/-- The trace grows by events that are accounted for. -/
def Logs (c : Config Obj) (a : Action Obj) (d c' : Config Obj) : Prop :=
  ∃ events, c'.trace = d.trace ++ events ∧ Logged c a events ∧ Owes d events c'

namespace Logs

variable {c c' d d' : Config Obj} {a : Action Obj}

theorem of_eq (same : c'.trace = d.trace) (drain : c'.state.needDrain = d.state.needDrain) :
    Logs c a d c' :=
  ⟨[], by rw [same, append_nil], .nil, .of_eq drain⟩

theorem trans (first : Logs c a d d') (second : Logs c a d' c') : Logs c a d c' := by
  obtain ⟨events, same, logged, owes⟩ := first
  obtain ⟨events', same', logged', owes'⟩ := second
  exact ⟨events ++ events', by rw [same', same, append_assoc], logged.append logged',
    owes.trans owes'⟩

theorem of_adds (adds : Adds d c') : Logs c a d c' := by
  obtain ⟨events, same, minor, owes⟩ := adds.trace
  exact ⟨events, same, .of_minor minor, owes⟩

theorem opened {b : Config Obj} (prepared : Opened c a b) : Logs c a c b := by
  cases prepared with
  | uncork => exact of_eq rfl rfl
  | end_ => exact of_eq rfl rfl
  | onwrite index handover =>
    exact ⟨[.completed handover false], rfl, ⟨by simp, by simp, by simp⟩,
      .of_event rfl fun _ owed => owed⟩

theorem handed (handover : Handover Obj) (same : c'.trace = d.trace ++ [.handed handover])
    (drain : c'.state.needDrain = d.state.needDrain) : Logs c a d c' :=
  ⟨[.handed handover], same, .handed handover, .of_event drain fun _ owed => owed⟩

theorem accept (c : Config Obj) (a : Action Obj) (b : Config Obj) (request : Request Obj)
    (len : Nat) : Logs c a b (accept b.charge request len) := by
  obtain ⟨ret, same⟩ : ∃ ret : Bool, Writable.accept b.charge request len = (b.charge.set fun s =>
        { s with
          length := s.length + len
          needDrain := if ret then s.needDrain else true }).log (.accepted request ret) :=
    ⟨_, rfl⟩
  rw [same]
  refine ⟨[.accepted request ret], rfl, .accepted request ret, fun owed before after => ?_⟩
  cases ret with
  | true => exact before after
  | false => rfl

end Logs

theorem Transition.logs (moved : Transition env c a c') : Logs c a c c' := by
  cases moved with
  | @written _ b _ chunk turn calls passes done =>
    have base : Logs c a c b := .of_eq (by cases calls <;> rfl) (by cases calls <;> rfl)
    refine base.trans ?_
    cases done with
    | refused er => exact .of_adds (.refuse _ er)
    | threw mode nullish =>
      have mode' : c.state.objectMode = false := by cases calls <;> exact mode
      exact ⟨[.threw], rfl, ⟨fun _ => ⟨mode', chunk, passes, nullish⟩, by simp, by simp⟩,
        .of_event rfl fun _ owed => owed⟩
    | buffered request len =>
      exact (Logs.accept c a b request len).trans (.of_eq rfl rfl)
    | direct request len =>
      exact (Logs.accept c a b request len).trans (.handed _ rfl rfl)
  | endCalled | cork | uncorked | returned | refuse | doWrite | clearFast | clearSlow
  | clearDangling | onwriteLater | notYet | endUncork | endAgain | endFinal => exact .of_eq rfl rfl
  | opened prepared => exact .opened prepared
  | flushed prepared ready done =>
    refine (Logs.opened prepared).trans ?_
    cases done with
    | fast | slow => exact .handed _ rfl rfl
    | dangling => exact .of_eq rfl rfl
  | failed index handover =>
    have settled : Logs c (.complete index true) c (settle c index handover true) :=
      ⟨[.completed handover true], rfl, ⟨by simp, fun _ _ => ⟨index, rfl⟩, by simp⟩,
        .of_event rfl fun _ owed => owed⟩
    exact settled.trans (.of_adds (.onwriteError _ _ _))
  | ticked tick rest => exact .of_adds (d := { c with ticks := rest }) (.runTick _ tick)
  | clearNext => exact .handed _ rfl rfl
  | onwriteNow finished cb rest top =>
    exact .of_adds (d := { c with stack := rest }) (.afterWrite _ _ _)
  | afterWrite cb rest top => exact .of_adds (d := { c with stack := rest }) (.afterWriteEnd _ _)
  | callbacks ids failed rest top =>
    exact .of_adds (d := { c with stack := rest }) (.callNext _ _ _)
  | onwriteError rest top => exact .of_adds (d := { c with stack := rest }) (.onwriteErrorEnd _)
  | awaits rest => exact .of_adds (d := { c with stack := rest }) (.prefinish _)
  | finishes rest =>
    exact .of_adds (d := { c with stack := rest }.push .finish) (.prefinish _)
  | finish rest top =>
    exact ⟨[.emitted .finish], rfl, ⟨by simp, by simp, fun _ => ⟨rest, top⟩⟩,
      .of_event rfl fun _ owed => owed⟩
  | endWritable cb => exact .of_eq (endWritableEnd_trace _ cb) (by rw [endWritableEnd_state])

/-- A step throws nothing where its chunk is present. -/
theorem thrown_step (moved : Transition env c a c')
    (present : a.present c.state = true) : thrown c'.trace = thrown c.trace := by
  obtain ⟨events, same, logged, -⟩ := moved.logs
  have none : .threw ∉ events := by
    intro member
    obtain ⟨mode, chunk, passes, nullish⟩ := logged.threw member
    simp [Action.present, passes, mode, nullish] at present
  have zero : thrown events = 0 := by
    rw [thrown, length_eq_zero_iff, filter_eq_nil_iff]
    intro event member threw
    cases event with
    | threw => exact none member
    | _ => cases threw
  rw [same, thrown, filter_append, length_append]
  exact congrArg (thrown c.trace + ·) zero

end IoJs.Stream.Writable
