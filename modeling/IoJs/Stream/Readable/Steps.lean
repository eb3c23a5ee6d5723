import IoJs.Library.Runs
import IoJs.Stream.Readable.Effect

/-!
# One step of a Readable

`Change` lists what one step can do to the stored chunks; `Stepped` says which step does
which of it, and `stepped_of_step` proves so for every action. What is assumed is that
what comes in fits what is stored (`Proper`), and that after `_read` the stream still holds
what `read()` computed before it (that is for `Nesting`).
-/

namespace IoJs.Stream.Readable

open IoJs.Library List

variable {Obj : Type}
variable {c c' : Config Obj} {env : Environment Obj} {chunk : Chunk Obj} {encoding : String}
  {a : Action Obj}

/-! ## What one step does -/

/-- What the code of the stream does when it goes on by itself, or in `read()`. -/
inductive Own (c c' : Config Obj) : Prop where
  | idle (idle : Idle Frame.quiet c c')
  | takes {d : Config Obj} (k : Nat) (chunk : Chunk Obj) (before : Idle Frame.quiet c d)
      (taken : Takes d c' k chunk)
  | calls {d : Config Obj} (nOrig : Option Int) (before : Idle Frame.quiet c d)
      (open_ : c.state.ended = false)
      (same : c' = callRead d nOrig (howMuchToRead nOrig d.state))
  | finishes (alone : c.stack = []) (ended : c.state.ended = true)
      (open_ : c.state.endEmitted = false) (none : c.state.length = 0)
      (same : c' = endReadableNow c)

/-- What a step does, once a call in progress is popped. -/
inductive Change (c c' : Config Obj) : Prop where
  | own (own : Own c c')
  | fills (front : Bool) (given chunk : Chunk Obj) (filled : Fills c front given chunk c')
  | encodes (encoding : String) (free : c.state.objectMode = true ∨ c.state.buffer = [])
      (same : c' = setEncoding c encoding)

theorem Reads.own {b : Config Obj} {nOrig : Option Int} (before : Idle Frame.quiet b c)
    (reads : Reads c nOrig c') : Own b c' := by
  cases reads with
  | @zero d zero alike =>
    have pushed : Idle Frame.quiet d (d.push (.readReturn none)) := .push d rfl
    have emitted : Idle Frame.quiet _ (emitReadable (d.push (.readReturn none))) :=
      (Idle.emitReadable _).mono fun frame => frame.quiet_of_calm _
    exact .idle (before.trans (alike.idle.trans (pushed.trans emitted)))
  | null alike => exact .idle (before.trans (alike.idle.trans (.returnRead _)))
  | takes chunk alike taken => exact .takes _ chunk (before.trans alike.idle) taken
  | calls alike open_ =>
    refine .calls nOrig (before.trans alike.idle) (before.ended ▸ open_) ?_
    rw [alike.howMuchToRead]

/-- A call in progress of the stream other than a `read` that takes a chunk. -/
def Frame.continues : Frame Obj → Bool
  | .user _ => false
  | .read _ _ => false
  | .readReturn (some _) => false
  | _ => true

section Owns

variable {c d : Config Obj} (sound : Sound c.state) {n : Int}
include sound

theorem read_own (before : Idle Frame.quiet c d) (nOrig : Option Int) : Own c (read d nOrig) :=
  (read_spec (sound.of_store before.store) nOrig).own before

theorem flow_own (before : Idle Frame.quiet c d) : Own c (flow d) := by
  simp only [flow]
  split
  · exact read_own sound (before.trans (.push d rfl)) none
  · exact .idle before

theorem maybeReadMoreLoop_own : Own c (maybeReadMoreLoop c) := by
  simp only [maybeReadMoreLoop]
  split
  · exact read_own sound (.push c rfl) (some 0)
  · exact .idle (.set c rfl)

omit sound in
theorem resumeEmit_idle (c : Config Obj) : Idle Frame.quiet c (resumeEmit c) :=
  (Idle.set c rfl).trans ((Idle.push _ rfl).trans (.emit _ rfl rfl))

theorem resume_own {frame : Frame Obj} (continues : frame.continues = true)
    (resumed : resume c frame = some d) : Own c d := by
  cases frame with
  | user code => cases resumed
  | read => cases continues
  | readReturn ret =>
    cases resumed
    cases ret with
    | none => exact .idle (.returnRead c)
    | some => cases continues
  | flow =>
    cases resumed
    simp only [flowAfter]
    split
    · exact flow_own sound (.refl c)
    · exact .idle (.refl c)
  | emitReadable =>
    cases resumed
    exact flow_own sound (.refl c)
  | addChunkRead =>
    cases resumed
    exact read_own sound (.push c rfl) (some 0)
  | addChunkMore =>
    cases resumed
    exact .idle ((Idle.maybeReadMore c).trans (.addChunkReturn _))
  | addChunkReturn =>
    cases resumed
    exact .idle (.addChunkReturn c)
  | maybeReadMore len =>
    cases resumed
    simp only [maybeReadMoreAfter]
    split
    · exact .idle (.set c rfl)
    · exact maybeReadMoreLoop_own sound
  | resumeEmit =>
    cases resumed
    exact .idle (resumeEmit_idle c)
  | resumeFlow =>
    cases resumed
    exact flow_own sound (.push c rfl)
  | resumeRead =>
    cases resumed
    simp only [resumeRead]
    split
    · exact read_own sound (.refl c) (some 0)
    · exact .idle (.refl c)

theorem runTick_own (alone : c.stack = []) (tick : Tick)
    (due : tick = .endReadable → c.state.ended = true) : Own c (runTick c tick) := by
  cases tick with
  | emitReadable => exact .idle ((Idle.push c rfl).trans (.emit _ rfl rfl))
  | maybeReadMore => exact maybeReadMoreLoop_own sound
  | resume =>
    simp only [runTick, resumeNow]
    split
    · exact .idle (resumeEmit_idle c)
    · exact read_own sound (.push c rfl) (some 0)
  | endReadable =>
    by_cases ends : c.state.endEmitted = false ∧ c.state.length = 0
    · exact .finishes alone (due rfl) ends.1 ends.2 rfl
    have still : endReadableNow c = c := by
      rw [endReadableNow, if_neg]
      simpa using ends
    rw [runTick, still]
    exact .idle (.refl c)
  | readZero => exact read_own sound (.refl c) (some 0)

theorem readAfter_spec (nOrig : Option Int) (bounded : Bounded c.state n) :
    ∃ (d : Config Obj) (m : Int), m = (if c.state.reading then n else howMuchToRead nOrig c.state) ∧
      Alike (c.set fun s => { s with sync := false }) d ∧
      ((0 < m ∧ c.state.length ≠ 0 ∧ ∃ chunk, Takes d (readAfter c nOrig n) m.toNat chunk) ∨
        ((m ≤ 0 ∨ c.state.length = 0) ∧ readAfter c nOrig n = d.returnRead none)) := by
  let b := c.set fun s => { s with sync := false }
  have soundB : Sound b.state := ⟨sound.length, sound.uniform⟩
  have rest {d : Config Obj} (before : Alike b d) {m : Int} (bounded : Bounded c.state m)
      (whole : readAfter c nOrig n = readRest d nOrig m) :
      ∃ d, Alike b d ∧
        ((0 < m ∧ c.state.length ≠ 0 ∧ ∃ chunk, Takes d (readAfter c nOrig n) m.toNat chunk) ∨
          ((m ≤ 0 ∨ c.state.length = 0) ∧ readAfter c nOrig n = d.returnRead none)) := by
    have length : d.state.length = c.state.length := before.length
    by_cases takes : 0 < m ∧ c.state.length ≠ 0
    · have bounded' : Bounded d.state m := by
        rw [Bounded, before.objectMode, before.length]
        exact bounded
      have taken := readRest_takes (soundB.of_store before.store) nOrig bounded' takes.1
        (length ▸ takes.2)
      exact ⟨d, before, .inl ⟨takes.1, takes.2, whole ▸ taken⟩⟩
    have nothing : m ≤ 0 ∨ c.state.length = 0 := by omega
    obtain ⟨e, alike, same⟩ := readRest_null (c := d) nOrig (length.symm ▸ nothing)
    exact ⟨e, before.trans alike, .inr ⟨nothing, whole.trans same⟩⟩
  cases reading : c.state.reading with
  | true =>
    have whole : readAfter c nOrig n = readRest b nOrig n := by simp [readAfter, b, reading]
    obtain ⟨d, alike, result⟩ := rest (.refl b) bounded whole
    exact ⟨d, n, rfl, alike, result⟩
  | false =>
    have whole : readAfter c nOrig n =
        readRest (b.set (raiseHwm nOrig)) nOrig (howMuchToRead nOrig c.state) := by
      simp only [readAfter, Config.set_state, reading, Bool.false_eq_true, if_false]
      rfl
    obtain ⟨d, alike, result⟩ := rest (.raiseHwm b nOrig)
      (howMuchToRead_bounded sound nOrig) whole
    exact ⟨d, _, rfl, alike, result⟩

theorem readAfter_own (nOrig : Option Int) (bounded : Bounded c.state n) :
    Own (c.set fun s => { s with sync := false }) (readAfter c nOrig n) := by
  obtain ⟨d, m, -, alike, ⟨-, -, chunk, taken⟩ | ⟨-, same⟩⟩ := readAfter_spec sound nOrig bounded
  · exact .takes _ chunk alike.idle taken
  · exact .idle (same ▸ alike.idle.trans (.returnRead d))

end Owns

/-! ## The callers of a Readable -/

/-- Is `_read` running? -/
def Config.inImplementation (c : Config Obj) : Bool :=
  c.stack.any fun
    | .user .implementation => true
    | _ => false

/-- What comes in is of the kind of what is stored, and `_read` does not read its own
stream: it pushes, at once or later. -/
def Proper (c : Config Obj) : Action Obj → Prop
  | .push chunk encoding =>
    c.state.objectMode = true ∨ encoding = "" ∨ c.state.decoder = none ∨ chunk.isBuffer = false
  | .unshift chunk => chunk.isNull = false ∧ fits c.state chunk = true
  | .read _ => c.inImplementation = false
  | .setEncoding _ => c.state.objectMode = true ∨ c.state.buffer = []
  | _ => True

instance [DecidableEq Obj] (c : Config Obj) (a : Action Obj) : Decidable (Proper c a) :=
  match a with
  | .push _ _ => inferInstanceAs (Decidable (_ ∨ _ ∨ _ ∨ _))
  | .unshift _ => inferInstanceAs (Decidable (_ ∧ _))
  | .read _ => inferInstanceAs (Decidable (_ = _))
  | .setEncoding _ => inferInstanceAs (Decidable (_ ∨ _))
  | .pause | .resumeStream | .onData | .onReadable | .ret | .tick | .resume =>
    inferInstanceAs (Decidable True)

/-- There is an encoding where there is a decoder. -/
def Consistent (s : ReadableState Obj) : Prop := s.encoding.isSome = s.decoder.isSome

/-- The chunk that `push()` appends. -/
def pushedChunk (env : Environment Obj) (s : ReadableState Obj) (chunk : Chunk Obj)
    (encoding : String) : Chunk Obj :=
  let (chunk, encoding) := pushedAs env s chunk encoding
  (decodeChunk env s chunk encoding false).1

theorem fits_decoded (env : Environment Obj) (s : ReadableState Obj) (bytes : List UInt8) :
    fits s (decodeChunk env s (.buffer bytes) "" false).1 = true := by
  cases decoder : s.decoder with
  | none => simp [fits, decodeChunk, decoder, Chunk.isBuffer]
  | some d => simp [fits, decodeChunk, decoder, Chunk.isString]

theorem fits_pushedChunk
    (consistent : Consistent c.state) (proper : Proper c (.push chunk encoding))
    (holds : holdsData c.state (pushedAs env c.state chunk encoding).1 = true) :
    fits c.state (pushedChunk env c.state chunk encoding) = true := by
  cases mode : c.state.objectMode with
  | true => simp [fits, mode]
  | false =>
    cases chunk with
    | buffer bytes =>
      simp only [pushedChunk, pushedAs]
      by_cases plain : encoding = ""
      · rw [plain]
        exact fits_decoded env c.state bytes
      have none : c.state.decoder = none := by
        simpa [Proper, mode, plain, Chunk.isBuffer] using proper
      simp [fits, decodeChunk, none, Chunk.isBuffer]
    | string =>
      simp only [pushedChunk, pushedAs, mode, Bool.false_eq_true, if_false]
      generalize (if encoding = "" then c.state.defaultEncoding else encoding) = used
      by_cases same : c.state.encoding = some used
      · obtain ⟨d, decoder⟩ := Option.isSome_iff_exists.mp
          (consistent.symm.trans (by rw [same]; rfl))
        rw [if_pos same]
        by_cases plain : used = ""
        · simp [fits, decodeChunk, decoder, plain, Chunk.isString]
        · simp [fits, decodeChunk, decoder, plain, Chunk.isString]
      · simpa [same] using fits_decoded env c.state _
    | object | null | undefined =>
      simp [holdsData, pushedAs, mode, Chunk.size, Chunk.length?] at holds

theorem push_spec (consistent : Consistent c.state) (proper : Proper c (.push chunk encoding)) :
    Fills c false (pushedAs env c.state chunk encoding).1 (pushedChunk env c.state chunk encoding)
      (push env c chunk encoding) :=
  readableAddChunk_spec env c _ _ false (fits_pushedChunk consistent proper)

theorem decodeChunk_front (env : Environment Obj) (s : ReadableState Obj) (chunk : Chunk Obj)
    (encoding : String) : (decodeChunk env s chunk encoding true).1 = chunk := by
  cases decoder : s.decoder <;> simp [decodeChunk, decoder]

theorem unshift_spec
    (proper : Proper c (.unshift chunk)) : Fills c true chunk chunk (unshift env c chunk) := by
  have same := decodeChunk_front env c.state chunk ""
  have spec := readableAddChunk_spec env c chunk "" true fun _ => same.symm ▸ proper.2
  rw [same] at spec
  exact spec

/-! ## Which step does what -/

/-- What a method other than `read()` does. -/
inductive Method (env : Environment Obj) (c : Config Obj) : Action Obj → Config Obj → Prop where
  | idle {a : Action Obj} {c' : Config Obj} (idle : Idle (Frame.calm c.state.sync) c c') :
      Method env c a c'
  | pushes {chunk : Chunk Obj} {encoding : String} {c' : Config Obj}
      (filled : Fills c false (pushedAs env c.state chunk encoding).1
        (pushedChunk env c.state chunk encoding) c') : Method env c (.push chunk encoding) c'
  | unshifts {chunk : Chunk Obj} {c' : Config Obj} (filled : Fills c true chunk chunk c') :
      Method env c (.unshift chunk) c'
  | encodes {encoding : String} (free : c.state.objectMode = true ∨ c.state.buffer = []) :
      Method env c (.setEncoding encoding) (setEncoding c encoding)

theorem Method.change (method : Method env c a c') : Change c c' := by
  cases method with
  | idle idle => exact .own (.idle (idle.mono fun frame => frame.quiet_of_calm _))
  | pushes filled => exact .fills false _ _ filled
  | unshifts filled => exact .fills true _ _ filled
  | encodes free => exact .encodes _ free rfl

/-- What each step does. -/
inductive Stepped (env : Environment Obj) (c : Config Obj) : Action Obj → Config Obj → Prop where
  | method {a : Action Obj} {c' : Config Obj} (turn : c.userTurn = true)
      (method : Method env c a c') : Stepped env c a c'
  | read {nOrig : Option Int} {c' : Config Obj} (turn : c.userTurn = true) (own : Own c c') :
      Stepped env c (.read nOrig) c'
  | ret (code : UserCode Obj) (rest : List (Frame Obj)) (top : c.stack = .user code :: rest) :
      Stepped env c .ret { c with stack := rest }
  | resume {c' : Config Obj} (frame : Frame Obj) (rest : List (Frame Obj))
      (top : c.stack = frame :: rest) (continues : frame.continues = true)
      (own : Own { c with stack := rest } c')
      (passive : frame.passive = true → Idle Frame.passive { c with stack := rest } c') :
      Stepped env c .resume c'
  | returns (chunk : Chunk Obj) (rest : List (Frame Obj))
      (top : c.stack = .readReturn (some chunk) :: rest) :
      Stepped env c .resume ({ c with stack := rest }.returnRead (some chunk))
  | readAfter {c' : Config Obj} (nOrig : Option Int) (n : Int) (rest : List (Frame Obj))
      (top : c.stack = .read nOrig n :: rest)
      (own : Own ({ c with stack := rest }.set fun s => { s with sync := false }) c') :
      Stepped env c .resume c'
  | tick {c' : Config Obj} (tick : Tick) (rest : List Tick) (idle : c.stack = [])
      (queued : c.ticks = tick :: rest) (own : Own { c with ticks := rest } c') :
      Stepped env c .tick c'

/-- **What a proper step does** where the stream is in order -/
theorem stepped_of_step (sound : Sound c.state) (consistent : Consistent c.state)
    (bounded : ∀ nOrig n rest, c.stack = .read nOrig n :: rest → Bounded c.state n)
    (due : .endReadable ∈ c.ticks → c.state.ended = true) (proper : Proper c a)
    (stepped : step env c a = some c') : Stepped env c a c' := by
  have called {d : Config Obj} (possible : (if c.userTurn then some d else none) = some c')
      (method : Method env c a d) : Stepped env c a c' := by
    split at possible
    · rename_i turn
      cases possible
      exact .method turn method
    · cases possible
  cases a with
  | push => exact called stepped (.pushes (push_spec consistent proper))
  | unshift => exact called stepped (.unshifts (unshift_spec proper))
  | read n =>
    simp only [step] at stepped
    split at stepped
    · rename_i turn
      cases stepped
      exact .read turn (read_own sound (.refl c) n)
    · cases stepped
  | setEncoding => exact called stepped (.encodes proper)
  | pause => exact called stepped (.idle ((Idle.pause c).mono fun frame => frame.calm_of_passive _))
  | resumeStream => exact called stepped (.idle (.resumeStream c))
  | onData => exact called stepped (.idle (.onData c))
  | onReadable => exact called stepped (.idle (.onReadable c))
  | ret =>
    simp only [step] at stepped
    split at stepped
    · rename_i code rest top
      cases stepped
      exact .ret code rest top
    · cases stepped
  | tick =>
    simp only [step] at stepped
    split at stepped
    · rename_i tick rest idle queued
      cases stepped
      exact .tick tick rest idle queued
        (runTick_own (c := { c with ticks := rest }) sound idle tick fun last =>
          due (by rw [queued, last]; exact mem_cons_self))
    · cases stepped
  | resume =>
    simp only [step] at stepped
    split at stepped
    · rename_i frame rest top
      cases frame with
      | user code => cases stepped
      | read nOrig n =>
        cases stepped
        exact .readAfter nOrig n rest top
          (readAfter_own (c := { c with stack := rest }) sound nOrig (bounded _ _ _ top))
      | readReturn ret =>
        cases ret with
        | none =>
          refine .resume _ rest top rfl (resume_own sound rfl stepped) fun passive => ?_
          cases passive
        | some chunk =>
          cases stepped
          exact .returns chunk rest top
      | addChunkMore =>
        have idle : Idle Frame.passive { c with stack := rest } c' := by
          cases stepped
          exact (Idle.maybeReadMore _).trans (.addChunkReturn _)
        exact .resume _ rest top rfl (resume_own sound rfl stepped) fun _ => idle
      | addChunkReturn =>
        have idle : Idle Frame.passive { c with stack := rest } c' := by
          cases stepped
          exact .addChunkReturn _
        exact .resume _ rest top rfl (resume_own sound rfl stepped) fun _ => idle
      | _ =>
        refine .resume _ rest top rfl (resume_own sound rfl stepped) fun passive => ?_
        cases passive
    · cases stepped

/-- The configuration that a step starts from, once a call or a tick is popped. A `read`
that took a chunk returns it. -/
structure Base (c b : Config Obj) : Prop where
  store : b.state.store = { c.state.store with sync := b.state.sync }
  reading : b.state.reading = c.state.reading
  ticks : ∀ tick ∈ b.ticks, tick ∈ c.ticks
  popped : (b.stack <:+ c.stack ∧ b.trace = c.trace) ∨
    ∃ chunk, c.stack = .readReturn (some chunk) :: b.stack ∧
      b.trace = c.trace ++ [.result (some chunk)]

namespace Base

variable {c b : Config Obj}

section

variable (base : Base c b)
include base

theorem stack : b.stack <:+ c.stack := by
  rcases base.popped with ⟨suffix, -⟩ | ⟨chunk, top, -⟩
  · exact suffix
  · exact top ▸ suffix_cons _ _

theorem objectMode : b.state.objectMode = c.state.objectMode := congrArg Store.objectMode base.store

theorem buffer : b.state.buffer = c.state.buffer := congrArg Store.buffer base.store

theorem length : b.state.length = c.state.length := congrArg Store.length base.store

theorem ended : b.state.ended = c.state.ended := congrArg Store.ended base.store

theorem endEmitted : b.state.endEmitted = c.state.endEmitted := congrArg Store.endEmitted base.store

theorem sequence : b.state.sequence = c.state.sequence := by
  simp [ReadableState.sequence, base.objectMode, base.buffer]

theorem sound (sound : Sound c.state) : Sound b.state :=
  sound.congr base.objectMode base.buffer base.length
    (congrArg (fun store => store.decoder.isSome) base.store)

theorem consistent (consistent : Consistent c.state) : Consistent b.state := by
  have encoding : b.state.encoding = c.state.encoding := congrArg Store.encoding base.store
  have decoder : b.state.decoder = c.state.decoder := congrArg Store.decoder base.store
  rw [Consistent, encoding, decoder]
  exact consistent

end

end Base

theorem Stepped.change (stepped : Stepped env c a c') : ∃ b, Base c b ∧ Change b c' := by
  have same : Base c c := ⟨rfl, rfl, fun _ => id, .inl ⟨suffix_refl _, rfl⟩⟩
  have popped {frame : Frame Obj} {rest : List (Frame Obj)} (top : c.stack = frame :: rest) :
      Base c { c with stack := rest } :=
    ⟨rfl, rfl, fun _ => id, .inl ⟨top ▸ suffix_cons _ _, rfl⟩⟩
  cases stepped with
  | method turn method => exact ⟨c, same, method.change⟩
  | read turn own => exact ⟨c, same, .own own⟩
  | ret code rest top => exact ⟨_, popped top, .own (.idle (.refl _))⟩
  | resume frame rest top continues own => exact ⟨_, popped top, .own own⟩
  | returns chunk rest top =>
    refine ⟨{ c with stack := rest }.returnRead (some chunk), ?_, .own (.idle (.refl _))⟩
    exact ⟨rfl, rfl, fun _ => id, .inr ⟨chunk, top, rfl⟩⟩
  | readAfter nOrig n rest top own =>
    refine ⟨{ c with stack := rest }.set fun s => { s with sync := false }, ?_, .own own⟩
    exact ⟨rfl, rfl, fun _ => id, (popped top).popped⟩
  | tick tick rest idle queued own =>
    refine ⟨{ c with ticks := rest }, ⟨rfl, rfl, fun tick member => ?_, same.popped⟩, .own own⟩
    rw [queued]
    exact mem_cons_of_mem _ member

/-! ## What every step preserves -/

theorem sequence_congr {s s' : ReadableState Obj} (mode : s'.objectMode = s.objectMode)
    (buffer : s'.buffer = s.buffer) : s'.sequence = s.sequence := by
  simp [ReadableState.sequence, mode, buffer]

namespace Stores

variable {c c' : Config Obj} {front : Bool} {chunk : Chunk Obj}

section

variable (stored : Stores c c' front chunk)
include stored

theorem objectMode : c'.state.objectMode = c.state.objectMode := by
  obtain ⟨_, -, store⟩ := stored.store
  exact congrArg Store.objectMode store

theorem buffer :
    c'.state.buffer = if front then chunk :: c.state.buffer else c.state.buffer ++ [chunk] := by
  obtain ⟨_, -, store⟩ := stored.store
  exact congrArg Store.buffer store

theorem length : c'.state.length = c.state.length + (chunk.elements c.state.objectMode).length := by
  obtain ⟨_, -, store⟩ := stored.store
  exact congrArg Store.length store

theorem decoder : c'.state.decoder.isSome = c.state.decoder.isSome := by
  obtain ⟨_, kind, store⟩ := stored.store
  exact (congrArg (fun store => store.decoder.isSome) store).trans kind

theorem sequence : c'.state.sequence =
    if front then chunk.elements c.state.objectMode ++ c.state.sequence
    else c.state.sequence ++ chunk.elements c.state.objectMode := by
  rw [ReadableState.sequence, stored.objectMode, stored.buffer]
  cases front <;> simp [ReadableState.sequence]

theorem sound (sound : Sound c.state) : Sound c'.state := by
  refine ⟨?_, fun added member => ?_⟩
  · rw [stored.length, stored.sequence, sound.length]
    cases front <;> simp [add_comm]
  rw [fits_congr stored.objectMode stored.decoder]
  rw [stored.buffer] at member
  have either : added = chunk ∨ added ∈ c.state.buffer := by grind
  rcases either with rfl | old
  · exact stored.fit
  · exact sound.uniform added old

end

end Stores

namespace Passes

variable {c c' : Config Obj} {front : Bool} {chunk : Chunk Obj}

section

variable (passed : Passes c c' front chunk)
include passed

theorem objectMode : c'.state.objectMode = c.state.objectMode := by
  obtain ⟨_, -, store⟩ := passed.store
  exact congrArg Store.objectMode store

theorem buffer : c'.state.buffer = c.state.buffer := by
  obtain ⟨_, -, store⟩ := passed.store
  exact congrArg Store.buffer store

theorem sound (sound : Sound c.state) : Sound c'.state := by
  obtain ⟨_, kind, store⟩ := passed.store
  exact sound.congr passed.objectMode passed.buffer (congrArg Store.length store)
    ((congrArg (fun store => store.decoder.isSome) store).trans kind)

end

end Passes

namespace Ends

variable {c c' : Config Obj} {rest : List (Chunk Obj)}

section

variable (ended : Ends c c' rest)
include ended

theorem objectMode : c'.state.objectMode = c.state.objectMode :=
  congrArg Store.objectMode ended.store

theorem sequence : c'.state.sequence = c.state.sequence ++ elementsOf c.state.objectMode rest := by
  have buffer : c'.state.buffer = c.state.buffer ++ rest := congrArg Store.buffer ended.store
  rw [ReadableState.sequence, ended.objectMode, buffer, elementsOf_append]
  rfl

theorem length : c'.state.length = c.state.length + (elementsOf c.state.objectMode rest).length :=
  congrArg Store.length ended.store

theorem sound (sound : Sound c.state) : Sound c'.state := by
  have buffer : c'.state.buffer = c.state.buffer ++ rest := congrArg Store.buffer ended.store
  refine ⟨?_, fun chunk member => ?_⟩
  · rw [ended.length, ended.sequence, sound.length]
    simp
  rw [fits_congr ended.objectMode (congrArg (fun store => store.decoder.isSome) ended.store)]
  rw [buffer] at member
  rcases mem_append.mp member with old | new
  · exact sound.uniform chunk old
  · exact (ended.fit chunk new).1

end

end Ends

namespace Takes

variable {c c' : Config Obj} {k : Nat} {chunk : Chunk Obj}

section

variable (taken : Takes c c' k chunk)
include taken

theorem objectMode : c'.state.objectMode = c.state.objectMode := by
  obtain ⟨_, -, store⟩ := taken.store
  exact congrArg Store.objectMode store

theorem length : c'.state.length = c.state.length - k := by
  obtain ⟨_, -, store⟩ := taken.store
  exact congrArg Store.length store

theorem first : chunk.elements c.state.objectMode = c.state.sequence.take k := by
  obtain ⟨_, taken, -⟩ := taken.store
  exact taken.first

theorem sequence : c'.state.sequence = c.state.sequence.drop k := by
  obtain ⟨left, left_, store⟩ := taken.store
  have buffer : c'.state.buffer = left := congrArg Store.buffer store
  rw [ReadableState.sequence, taken.objectMode, buffer, left_.rest]

theorem sound (sound : Sound c.state) : Sound c'.state := by
  obtain ⟨left, left_, store⟩ := taken.store
  have buffer : c'.state.buffer = left := congrArg Store.buffer store
  refine ⟨?_, fun chunk member => ?_⟩
  · have length := sound.length
    have within := taken.within
    rw [taken.length, taken.sequence, length_drop]
    omega
  rw [fits_congr taken.objectMode (congrArg (fun store => store.decoder.isSome) store)]
  exact left_.uniform chunk (buffer ▸ member)

end

end Takes

theorem endReadableNow_eq (open_ : c.state.endEmitted = false) (none : c.state.length = 0) :
    endReadableNow c =
      ({ c with readable := false }.set fun s => { s with endEmitted := true }).emit .end_ := by
  rw [endReadableNow, if_pos (by simp [open_, none])]

namespace Change

variable {c c' : Config Obj}

section

variable (change : Change c c')
include change

/-- Whatever a step does, `length` stays right. -/
theorem sound (sound : Sound c.state) : Sound c'.state := by
  cases change with
  | own own =>
    cases own with
    | idle idle => exact sound.of_store idle.store
    | takes k chunk before taken => exact taken.sound (sound.of_store before.store)
    | calls nOrig before open_ same =>
      rw [same]
      exact (sound.of_store before.store).congr rfl rfl rfl rfl
    | finishes alone ended open_ none same =>
      rw [same, endReadableNow_eq open_ none]
      exact sound.congr rfl rfl rfl rfl
  | fills front given chunk filled =>
    cases filled with
    | idle idle => exact sound.of_store idle.store
    | stores holds waits stored => exact stored.sound sound
    | passes passed => exact passed.sound sound
    | ends rest ended => exact ended.sound sound
  | encodes encoding free same =>
    refine ⟨same ▸ sound.length, fun chunk member => ?_⟩
    subst same
    rcases free with mode | empty
    · simp [fits, setEncoding, mode]
    · simp [setEncoding, empty] at member

theorem objectMode : c'.state.objectMode = c.state.objectMode := by
  cases change with
  | own own =>
    cases own with
    | idle idle => exact idle.objectMode
    | takes k chunk before taken => exact taken.objectMode.trans before.objectMode
    | calls nOrig before open_ same => exact same ▸ before.objectMode
    | finishes alone ended open_ none same => simp [same, endReadableNow_eq open_ none]
  | fills front given chunk filled =>
    cases filled with
    | idle idle => exact idle.objectMode
    | stores holds waits stored => exact stored.objectMode
    | passes passed => exact passed.objectMode
    | ends rest ended => exact ended.objectMode
  | encodes encoding free same => exact same ▸ rfl

theorem due (due : .endReadable ∈ c.ticks → c.state.ended = true) :
    .endReadable ∈ c'.ticks → c'.state.ended = true := by
  have kept {d d' : Config Obj} (before : .endReadable ∈ d.ticks → d.state.ended = true)
      (ticks : Due d d') (ended : d.state.ended = true → d'.state.ended = true) :
      .endReadable ∈ d'.ticks → d'.state.ended = true :=
    fun member => (ticks member).elim (fun old => ended (before old)) id
  have idles {kind : Frame Obj → Bool} {d : Config Obj} (idle : Idle kind c d) :=
    kept due idle.ticks idle.ended.trans
  cases change with
  | own own =>
    cases own with
    | idle idle => exact idles idle
    | takes k chunk before taken =>
      obtain ⟨left, -, store⟩ := taken.store
      exact kept (idles before) taken.ticks (congrArg Store.ended store).trans
    | calls nOrig before open_ same =>
      have before := idles before
      rw [same]
      exact before
    | finishes alone ended open_ none same =>
      rw [same, endReadableNow_eq open_ none]
      exact due
  | fills front given chunk filled =>
    cases filled with
    | idle idle => exact idles idle
    | stores holds waits stored =>
      obtain ⟨decoder, -, store⟩ := stored.store
      exact kept due stored.ticks (congrArg Store.ended store).trans
    | passes passed =>
      obtain ⟨decoder, -, store⟩ := passed.store
      exact kept due (.of_eq passed.ticks) (congrArg Store.ended store).trans
    | ends rest ended => exact fun _ => congrArg Store.ended ended.store
  | encodes encoding free same => exact same ▸ due

/-- Whatever a step does, there is an encoding where there is a decoder. -/
theorem consistent (consistent : Consistent c.state) : Consistent c'.state := by
  have kept {s s' : ReadableState Obj} (before : Consistent s)
      (encoding : s'.encoding = s.encoding) (decoder : s'.decoder.isSome = s.decoder.isSome) :
      Consistent s' := by
    rw [Consistent, encoding, decoder]
    exact before
  have idles {kind : Frame Obj → Bool} {d : Config Obj} (idle : Idle kind c d) :
      Consistent d.state :=
    kept consistent (congrArg Store.encoding idle.store)
      (congrArg (fun store => store.decoder.isSome) idle.store)
  cases change with
  | own own =>
    cases own with
    | idle idle => exact idles idle
    | takes k chunk before taken =>
      obtain ⟨left, -, store⟩ := taken.store
      exact kept (idles before) (congrArg Store.encoding store)
        (congrArg (fun store => store.decoder.isSome) store)
    | calls nOrig before open_ same =>
      rw [same]
      exact kept (idles before) rfl rfl
    | finishes alone ended open_ none same =>
      rw [same, endReadableNow_eq open_ none]
      exact consistent
  | fills front given chunk filled =>
    cases filled with
    | idle idle => exact idles idle
    | stores holds waits stored =>
      obtain ⟨decoder, kind, store⟩ := stored.store
      exact kept consistent (congrArg Store.encoding store) stored.decoder
    | passes passed =>
      obtain ⟨decoder, kind, store⟩ := passed.store
      exact kept consistent (congrArg Store.encoding store)
        ((congrArg (fun store => store.decoder.isSome) store).trans kind)
    | ends rest ended =>
      exact kept consistent (congrArg Store.encoding ended.store)
        (congrArg (fun store => store.decoder.isSome) ended.store)
  | encodes encoding free same => exact same ▸ rfl

end

end Change

end IoJs.Stream.Readable
