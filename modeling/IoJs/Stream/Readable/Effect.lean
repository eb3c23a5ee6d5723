import IoJs.Stream.Readable.Elements

/-!
# What the functions of a Readable do to the stored chunks

Most of what the stream does is to set flags, to queue ticks and to call listeners. `Idle`
says what that leaves alone: the chunks, `ended` and `endEmitted`. The others are the ways
data goes in and out (`Effect`): a chunk is stored or passed on at once, a chunk is taken,
the stream ends, and `_read` is called.
-/

namespace IoJs.Stream.Readable

open IoJs.Library List Option
open Readable.Frame

variable {Obj : Type} {c c' : Config Obj} {s s' : ReadableState Obj} {n : Int}

/-! ## Functions that leave the stored chunks alone -/

/-- What is stored, and how far the stream has ended. -/
structure Store (Obj : Type) where
  objectMode : Bool
  buffer : List (Chunk Obj)
  length : Int
  decoder : Option StringDecoder
  encoding : Option String
  ended : Bool
  endEmitted : Bool
  sync : Bool

/-- The part of the state that data goes through. -/
def ReadableState.store (s : ReadableState Obj) : Store Obj :=
  ⟨s.objectMode, s.buffer, s.length, s.decoder, s.encoding, s.ended, s.endEmitted, s.sync⟩

/-- An event by which nothing goes in or out. -/
def Event.silent : Event Obj → Bool
  | .emitted (.data _) => false
  | .emitted .end_ => false
  | .emitted _ => true
  | .result none => true
  | .answered _ => true
  | _ => false

/-- A call that was not made to take a chunk. -/
def Frame.quiet : Frame Obj → Bool
  | .user .implementation => false
  | .read _ _ => false
  | .readReturn (some _) => false
  | _ => true

/-- A call that does not read: listeners, and the ends of `push()` and `unshift()`. -/
def Frame.passive : Frame Obj → Bool
  | .user (.listeners _) => true
  | .addChunkMore => true
  | .addChunkReturn => true
  | _ => false

theorem Frame.quiet_of_passive (frame : Frame Obj) (passive : frame.passive = true) :
    frame.quiet = true := by
  cases frame with
  | user code =>
    cases code with
    | implementation => cases passive
    | listeners => rfl
  | addChunkMore => rfl
  | addChunkReturn => rfl
  | _ => cases passive

/-- The calls that a method other than `read()` makes: in sync mode it does not emit
`'readable'` itself. -/
def Frame.calm (sync : Bool) : Frame Obj → Bool
  | .emitReadable => !sync
  | frame => frame.passive

theorem Frame.calm_of_passive (sync : Bool) (frame : Frame Obj) (passive : frame.passive = true) :
    frame.calm sync = true := by
  cases frame with
  | emitReadable => cases passive
  | _ => exact passive

theorem Frame.passive_of_calm (frame : Frame Obj) (calm : frame.calm true = true) :
    frame.passive = true := by
  cases frame with
  | emitReadable => cases calm
  | _ => exact calm

theorem Frame.quiet_of_calm (sync : Bool) (frame : Frame Obj) (calm : frame.calm sync = true) :
    frame.quiet = true := by
  cases frame with
  | emitReadable => rfl
  | _ => exact quiet_of_passive _ calm

/-- `endReadable` is queued only where the stream has ended. -/
def Due (c c' : Config Obj) : Prop :=
  .endReadable ∈ c'.ticks → .endReadable ∈ c.ticks ∨ c'.state.ended = true

theorem Due.of_eq (same : c'.ticks = c.ticks) : Due c c' := fun member => .inl (same ▸ member)

theorem Due.nextTick (c : Config Obj) {tick : Tick}
    (due : tick = .endReadable → c.state.ended = true) : Due c (c.nextTick tick) := by
  intro member
  rcases mem_append.mp member with old | new
  · exact .inl old
  · exact .inr (due (mem_singleton.mp new).symm)

theorem Due.trans {c'' : Config Obj} (first : Due c c') (second : Due c' c'')
    (ended : c'.state.ended = true → c''.state.ended = true) : Due c c'' := by
  intro member
  rcases second member with old | past
  · exact (first old).imp id ended
  · exact .inr past

/-- Nothing goes in or out, and the calls in progress that are added are as given. -/
structure Idle (kind : Frame Obj → Bool) (c c' : Config Obj) : Prop where
  store : c'.state.store = c.state.store
  reading : c'.state.reading = true → c.state.reading = true
  ticks : Due c c'
  stack : ∃ frames, c'.stack = frames ++ c.stack ∧ ∀ frame ∈ frames, kind frame = true
  trace : ∃ events, c'.trace = c.trace ++ events ∧ ∀ event ∈ events, event.silent = true

namespace Idle

variable {kind kind' : Frame Obj → Bool} {c c' c'' : Config Obj}

theorem of_eq (store : c'.state.store = c.state.store)
    (reading : c'.state.reading = true → c.state.reading = true) (ticks : Due c c')
    (stack : c'.stack = c.stack) (trace : c'.trace = c.trace) : Idle kind c c' where
  store := store
  reading := reading
  ticks := ticks
  stack := ⟨[], stack, by simp⟩
  trace := ⟨[], by rw [trace, append_nil], by simp⟩

theorem refl (c : Config Obj) : Idle kind c c := of_eq rfl id (.of_eq rfl) rfl rfl

theorem trans (first : Idle kind c c') (second : Idle kind c' c'') : Idle kind c c'' where
  store := second.store.trans first.store
  reading := first.reading ∘ second.reading
  ticks := first.ticks.trans second.ticks fun ended =>
    (congrArg Store.ended second.store).trans ended
  stack := by
    obtain ⟨frames, same, all⟩ := first.stack
    obtain ⟨frames', same', all'⟩ := second.stack
    refine ⟨frames' ++ frames, by rw [same', same, append_assoc], fun frame member => ?_⟩
    exact (mem_append.mp member).elim (all' frame) (all frame)
  trace := by
    obtain ⟨events, same, all⟩ := first.trace
    obtain ⟨events', same', all'⟩ := second.trace
    refine ⟨events ++ events', by rw [same', same, append_assoc], fun event member => ?_⟩
    exact (mem_append.mp member).elim (all event) (all' event)

theorem mono (idle : Idle kind c c') (weaken : ∀ frame, kind frame = true → kind' frame = true) :
    Idle kind' c c' where
  store := idle.store
  reading := idle.reading
  ticks := idle.ticks
  stack := by
    obtain ⟨frames, same, all⟩ := idle.stack
    exact ⟨frames, same, fun frame member => weaken frame (all frame member)⟩
  trace := idle.trace

section

variable (c : Config Obj)

theorem set {f : ReadableState Obj → ReadableState Obj} (store : (f c.state).store = c.state.store)
    (reading : (f c.state).reading = true → c.state.reading = true := by exact id) :
    Idle kind c (c.set f) := of_eq store reading (.of_eq rfl) rfl rfl

theorem push {frame : Frame Obj} (here : kind frame = true) : Idle kind c (c.push frame) where
  store := rfl
  reading := id
  ticks := .of_eq rfl
  stack := ⟨[frame], rfl, by simpa using here⟩
  trace := ⟨[], by simp, by simp⟩

theorem log {event : Event Obj} (silent : event.silent = true) : Idle kind c (c.log event) where
  store := rfl
  reading := id
  ticks := .of_eq rfl
  stack := ⟨[], rfl, by simp⟩
  trace := ⟨[event], rfl, by simpa using silent⟩

theorem nextTick {tick : Tick} (other : tick ≠ .endReadable) : Idle kind c (c.nextTick tick) :=
  of_eq rfl id (.nextTick c fun same => absurd same other) rfl rfl

theorem emit {event : Emission Obj} (silent : Event.silent (.emitted event) = true)
    (here : kind (.user (.listeners event)) = true) : Idle kind c (c.emit event) :=
  (log c silent).trans (push _ here)

theorem returnRead : Idle kind c (c.returnRead none) :=
  (of_eq rfl id (.of_eq rfl) rfl rfl : Idle kind c { c with result := none }).trans (log _ rfl)

theorem emitReadable : Idle (calm c.state.sync) c (emitReadable c) := by
  simp only [Readable.emitReadable]
  split
  · exact set c rfl
  have raised : Idle (calm c.state.sync) c
      ((c.set fun s => { s with needReadable := false }).set fun s =>
        { s with emittedReadable := true }) := (set c rfl).trans (set _ rfl)
  split
  · exact raised.trans (nextTick _ (by simp))
  rename_i sync
  have async : c.state.sync = false := by simpa using sync
  rw [async] at raised ⊢
  exact raised.trans ((push _ rfl).trans (emit _ rfl rfl))

theorem maybeReadMore : Idle kind c (maybeReadMore c) := by
  simp only [Readable.maybeReadMore]
  split
  · exact refl c
  · exact (set c rfl).trans (nextTick _ (by simp))

theorem addChunkReturn : Idle kind c (addChunkReturn c) := log c rfl

theorem resumeStream : Idle kind c (resumeStream c) := by
  simp only [Readable.resumeStream]
  split
  · exact refl c
  split
  · exact set c rfl
  · exact ((set c rfl).trans (set _ rfl)).trans (nextTick _ (by simp))

theorem pause : Idle passive c (pause c) := by
  simp only [Readable.pause]
  split
  · exact refl c
  · exact (set c rfl).trans (emit _ rfl rfl)

theorem onData : Idle kind c (onData c) := by
  simp only [Readable.onData]
  split
  · exact refl c
  · exact resumeStream c

theorem onReadable : Idle (calm c.state.sync) c (onReadable c) := by
  simp only [Readable.onReadable]
  split
  · exact refl c
  split
  · exact (set c rfl).trans (nextTick _ (by simp))
  split
  · have emitted := emitReadable (c.set fun s =>
      { s with readableListening := true, emittedReadable := false, needReadable := true })
    exact (set c rfl).trans emitted
  · exact set c rfl

end

section

variable (idle : Idle kind c c')
include idle

theorem objectMode : c'.state.objectMode = c.state.objectMode :=
  congrArg Store.objectMode idle.store

theorem length : c'.state.length = c.state.length := congrArg Store.length idle.store

theorem ended : c'.state.ended = c.state.ended := congrArg Store.ended idle.store

theorem sync : c'.state.sync = c.state.sync := congrArg Store.sync idle.store

end

end Idle

/-- Nothing at all happens, but for flags and ticks. -/
structure Alike (c d : Config Obj) : Prop where
  store : d.state.store = c.state.store
  flowing : d.state.flowing = c.state.flowing
  reading : d.state.reading = c.state.reading
  ticks : Due c d
  stack : d.stack = c.stack
  trace : d.trace = c.trace

namespace Alike

variable {c d e : Config Obj}

theorem refl (c : Config Obj) : Alike c c := ⟨rfl, rfl, rfl, .of_eq rfl, rfl, rfl⟩

theorem trans (first : Alike c d) (second : Alike d e) : Alike c e where
  store := second.store.trans first.store
  flowing := second.flowing.trans first.flowing
  reading := second.reading.trans first.reading
  ticks := first.ticks.trans second.ticks fun ended =>
    (congrArg Store.ended second.store).trans ended
  stack := second.stack.trans first.stack
  trace := second.trace.trans first.trace

theorem raiseHwm (c : Config Obj) (n : Option Int) : Alike c (c.set (raiseHwm n)) := by
  suffices (Readable.raiseHwm n c.state).store = c.state.store ∧
      (Readable.raiseHwm n c.state).flowing = c.state.flowing ∧
      (Readable.raiseHwm n c.state).reading = c.state.reading from
    ⟨this.1, this.2.1, this.2.2, .of_eq rfl, rfl, rfl⟩
  simp only [Readable.raiseHwm]
  split
  · exact ⟨rfl, rfl, rfl⟩
  split
  · exact ⟨rfl, rfl, rfl⟩
  cases n with
  | none => exact ⟨rfl, rfl, rfl⟩
  | some n => dsimp only; split <;> exact ⟨rfl, rfl, rfl⟩

section

variable (alike : Alike c d)
include alike

theorem idle {kind : Frame Obj → Bool} : Idle kind c d :=
  .of_eq alike.store (fun reading => alike.reading ▸ reading) alike.ticks alike.stack alike.trace

theorem objectMode : d.state.objectMode = c.state.objectMode :=
  congrArg Store.objectMode alike.store

theorem length : d.state.length = c.state.length := congrArg Store.length alike.store

theorem ended : d.state.ended = c.state.ended := congrArg Store.ended alike.store

theorem howMuchToRead (n : Option Int) : howMuchToRead n d.state = howMuchToRead n c.state := by
  have buffer : d.state.buffer = c.state.buffer := congrArg Store.buffer alike.store
  simp only [Readable.howMuchToRead, alike.objectMode, alike.length, alike.flowing, buffer,
    alike.ended]

end

end Alike

/-! ## Taking -/

theorem fits_congr (mode : s'.objectMode = s.objectMode)
    (decoder : s'.decoder.isSome = s.decoder.isSome) (chunk : Chunk Obj) :
    fits s' chunk = fits s chunk := by
  rw [fits, fits, mode, decoder]

theorem Sound.congr (sound : Sound s)
    (mode : s'.objectMode = s.objectMode) (buffer : s'.buffer = s.buffer)
    (length : s'.length = s.length) (decoder : s'.decoder.isSome = s.decoder.isSome) :
    Sound s' := by
  constructor
  · rw [length, ReadableState.sequence, mode, buffer]
    exact sound.length
  intro chunk member
  rw [fits_congr mode decoder]
  exact sound.uniform chunk (buffer ▸ member)

theorem Sound.of_store (sound : Sound s) (same : s'.store = s.store) : Sound s' :=
  sound.congr (congrArg Store.objectMode same) (congrArg Store.buffer same)
    (congrArg Store.length same) (congrArg (fun store => store.decoder.isSome) same)

/-- An amount that `fromList` can be asked for. -/
def Bounded (s : ReadableState Obj) (n : Int) : Prop :=
  0 ≤ n ∧ n ≤ if s.objectMode then 1 else s.length

theorem howMuchToRead_bounded (sound : Sound s) (n : Option Int) :
    Bounded s (howMuchToRead n s) := by
  have length := sound.length
  cases mode : s.objectMode with
  | true =>
    simp only [Bounded, howMuchToRead, mode, if_true]
    split
    · omega
    · split <;> omega
  | false =>
    simp only [Bounded, howMuchToRead, mode, Bool.false_eq_true, if_false]
    split
    · omega
    cases n with
    | none =>
      dsimp only
      split
      · rename_i first rest _ list
        rw [ReadableState.sequence, list, mode, elementsOf_cons, length_append,
          first.elements_length] at length
        omega
      · omega
    | some n => grind

/-- `read` takes the first `k` elements and emits them. -/
structure Takes (c c' : Config Obj) (k : Nat) (chunk : Chunk Obj) : Prop where
  positive : 0 < k
  within : (k : Int) ≤ c.state.length
  ticks : Due c c'
  store : ∃ left, Taken c.state k chunk left ∧
    c'.state.store = { c.state.store with buffer := left, length := c.state.length - k }
  stack : c'.stack = .user (.listeners (.data chunk)) :: .readReturn (some chunk) :: c.stack
  trace : c'.trace = c.trace ++ [.emitted (.data chunk)]

/-- `endReadable` does not throw where nothing is left, and sets nothing where the stream
has ended. -/
theorem endReadable_spec (none : c.state.length = 0) (ended : c.state.ended = true) :
    ∃ d, endReadable c = some d ∧ Alike c d := by
  simp only [endReadable, none, lt_irrefl, if_false]
  split
  · exact ⟨c, rfl, .refl c⟩
  refine ⟨_, rfl, ?_, rfl, rfl, fun _ => .inr rfl, rfl, rfl⟩
  simp [ReadableState.store, ended]

theorem endIfPast_spec (nOrig : Option Int) (n : Int) (c : Config Obj) :
    ∃ d, endIfPast nOrig n c = some d ∧ Alike c d := by
  simp only [endIfPast]
  split
  · rename_i ends
    simp only [Bool.and_eq_true, decide_eq_true_eq] at ends
    exact endReadable_spec ends.2 ends.1.2
  · exact ⟨c, rfl, .refl c⟩

theorem attempt_eq {d : Config Obj} {f : Config Obj → Option (Config Obj)}
    (next : Config Obj → Config Obj) (done : f c = some d) : c.attempt f next = next d := by
  rw [Config.attempt, done]

theorem fromList_bounded (sound : Sound s) (bounded : Bounded s n)
    (positive : 0 < n) (holds : s.length ≠ 0) :
    n ≤ s.length ∧
      ∃ chunk left, fromList n s = (some chunk, left) ∧ Taken s n.toNat chunk left := by
  have length := sound.length
  have within := bounded.2
  cases mode : s.objectMode with
  | true =>
    rw [mode, if_pos rfl] at within
    obtain rfl : n = 1 := by omega
    exact ⟨by omega, fromList_objectMode sound mode holds 1⟩
  | false =>
    rw [mode, if_neg Bool.false_ne_true] at within
    exact ⟨within, fromList_spec sound mode positive within⟩

theorem readRest_null (nOrig : Option Int) (nothing : n ≤ 0 ∨ c.state.length = 0) :
    ∃ d, Alike c d ∧ readRest c nOrig n = d.returnRead none := by
  have same : (if 0 < n then fromList n c.state else (none, c.state.buffer)) =
      (none, c.state.buffer) := by
    split
    · have zero : c.state.length = 0 := by omega
      cases list : c.state.buffer with
      | nil => simp [fromList, list]
      | cons => simp [fromList, list, zero]
    · rfl
  let b := remove (c.set fun s => { s with needReadable := true }) 0 c.state.buffer
  have removed : Alike c b := by
    refine ⟨?_, rfl, rfl, .of_eq rfl, rfl, rfl⟩
    simp [b, ReadableState.store, remove]
  obtain ⟨d, done, alike⟩ := endIfPast_spec nOrig 0 b
  refine ⟨d, removed.trans alike, ?_⟩
  rw [readRest, same]
  exact attempt_eq _ done

theorem readRest_takes (sound : Sound c.state) (nOrig : Option Int)
    (bounded : Bounded c.state n) (positive : 0 < n) (holds : c.state.length ≠ 0) :
    ∃ chunk, Takes c (readRest c nOrig n) n.toNat chunk := by
  obtain ⟨within, chunk, left, same, taken⟩ := fromList_bounded sound bounded positive holds
  obtain ⟨d, done, alike⟩ := endIfPast_spec nOrig n (remove c n left)
  have whole : readRest c nOrig n = deliver chunk d := by
    simpa [readRest, positive, same] using attempt_eq _ done
  have amount : (n.toNat : Int) = n := by omega
  rw [whole]
  refine ⟨chunk, by omega, by omega, alike.ticks, ⟨left, taken, ?_⟩, ?_, ?_⟩
  · refine alike.store.trans ?_
    rw [amount]
    rfl
  · simp [deliver, alike.stack, remove]
  · simp [deliver, alike.trace, remove]

/-- `_read` is called, by `read(nOrig)` that could take `n` before. -/
def callRead (d : Config Obj) (nOrig : Option Int) (n : Int) : Config Obj :=
  ((d.set fun s =>
    { s with
      reading := true
      sync := true
      needReadable := decide (s.length = 0) || s.needReadable }).push (.read nOrig n)).push
    (.user .implementation)

/-- What `read(nOrig)` does on `c`. -/
inductive Reads (c : Config Obj) (nOrig : Option Int) : Config Obj → Prop where
  /-- `read(0)` calls `emitReadable` -/
  | zero {d : Config Obj} (zero : nOrig = some 0) (before : Alike c d) :
      Reads c nOrig (emitReadable (d.push (.readReturn none)))
  | null {d : Config Obj} (before : Alike c d)
      (nothing : howMuchToRead nOrig c.state ≤ 0 ∨ c.state.length = 0) :
      Reads c nOrig (d.returnRead none)
  | takes {d c' : Config Obj} (chunk : Chunk Obj) (before : Alike c d)
      (taken : Takes d c' (howMuchToRead nOrig c.state).toNat chunk) : Reads c nOrig c'
  | calls {d : Config Obj} (before : Alike c d) (open_ : c.state.ended = false) :
      Reads c nOrig (callRead d nOrig (howMuchToRead nOrig c.state))

/-- **What `read` does**, for all who call it -/
theorem read_spec (sound : Sound c.state) (nOrig : Option Int) : Reads c nOrig (read c nOrig) := by
  obtain ⟨b, whole, begins⟩ : ∃ b : Config Obj,
      b = (if nOrig.all (0 < ·) then c.set fun s => { s with emittedReadable := false } else c) ∧
      Alike c b := by
    refine ⟨_, rfl, ?_⟩
    split
    · exact ⟨rfl, rfl, rfl, .of_eq rfl, rfl, rfl⟩
    · exact .refl c
  simp only [read, ← whole]
  split
  · rename_i zero
    simp only [Bool.and_eq_true, decide_eq_true_eq] at zero
    split
    · rename_i done
      simp only [Bool.and_eq_true, decide_eq_true_eq] at done
      obtain ⟨d, ended, alike⟩ := endReadable_spec done.1 done.2
      rw [attempt_eq _ ended]
      exact .null (begins.trans alike) (.inr (begins.length ▸ done.1))
    · exact .zero zero.1.1 begins
  have raised : Alike c (b.set (raiseHwm nOrig)) := begins.trans (.raiseHwm b nOrig)
  have bounded := howMuchToRead_bounded sound nOrig
  have sound' : Sound (b.set (raiseHwm nOrig)).state := sound.of_store raised.store
  rw [begins.howMuchToRead]
  split
  · rename_i none
    simp only [Bool.and_eq_true, decide_eq_true_eq] at none
    have nothing : howMuchToRead nOrig c.state ≤ 0 ∨ c.state.length = 0 := .inl (by omega)
    split
    · rename_i zero
      obtain ⟨d, ended, alike⟩ := endReadable_spec zero none.2
      rw [attempt_eq _ ended]
      exact .null (raised.trans alike) nothing
    · exact .null raised nothing
  split
  · rename_i needed
    refine .calls raised ?_
    rw [← raised.ended]
    simp only [doRead, Bool.and_eq_true, Bool.not_eq_true', Bool.or_eq_false_iff] at needed
    exact needed.2.1
  by_cases takes : 0 < howMuchToRead nOrig c.state ∧ c.state.length ≠ 0
  · have bounded' : Bounded (b.set (raiseHwm nOrig)).state (howMuchToRead nOrig c.state) := by
      rw [Bounded, raised.objectMode, raised.length]
      exact bounded
    obtain ⟨chunk, taken⟩ := readRest_takes sound' nOrig bounded' takes.1
      (by rw [raised.length]; exact takes.2)
    exact .takes chunk raised taken
  have nothing : howMuchToRead nOrig c.state ≤ 0 ∨ c.state.length = 0 := by omega
  obtain ⟨d, alike, same⟩ := readRest_null nOrig (raised.length.symm ▸ nothing)
  rw [same]
  exact .null (raised.trans alike) nothing

/-! ## Filling -/

/-- May a chunk come in, at the end or in front? -/
def ReadableState.admits (s : ReadableState Obj) (front : Bool) : Bool :=
  !(if front then s.endEmitted else s.ended)

/-- A chunk is stored, at the end or in front. -/
structure Stores (c c' : Config Obj) (front : Bool) (chunk : Chunk Obj) : Prop where
  admitted : c.state.admits front = true
  fit : fits c.state chunk = true
  reading : front = false → c'.state.reading = false
  ticks : Due c c'
  store : ∃ decoder : Option StringDecoder, decoder.isSome = c.state.decoder.isSome ∧
    c'.state.store = { c.state.store with
      decoder
      buffer := if front then chunk :: c.state.buffer else c.state.buffer ++ [chunk]
      length := c.state.length + (chunk.elements c.state.objectMode).length }
  stack : ∃ frames, c'.stack = frames ++ c.stack ∧ ∀ frame ∈ frames, frame.calm c.state.sync = true
  trace : ∃ events, c'.trace = c.trace ++ .inward front chunk :: events ∧
    ∀ event ∈ events, event.silent = true

/-- A chunk is emitted at once. -/
structure Passes (c c' : Config Obj) (front : Bool) (chunk : Chunk Obj) : Prop where
  admitted : c.state.admits front = true
  empty : c.state.length = 0
  async : c.state.sync = false
  ticks : c'.ticks = c.ticks
  store : ∃ decoder : Option StringDecoder, decoder.isSome = c.state.decoder.isSome ∧
    c'.state.store = { c.state.store with decoder }
  stack : c'.stack = .user (.listeners (.data chunk)) :: .addChunkRead :: c.stack
  trace : c'.trace = c.trace ++ [.inward front chunk, .emitted (.data chunk)]

/-- The stream ends; what is left in the decoder is stored. -/
structure Ends (c c' : Config Obj) (rest : List (Chunk Obj)) : Prop where
  open_ : c.state.ended = false
  fit : ∀ chunk ∈ rest, fits c.state chunk = true ∧ chunk.elements c.state.objectMode ≠ []
  ticks : Due c c'
  store : c'.state.store = { c.state.store with
    buffer := c.state.buffer ++ rest
    length := c.state.length + (elementsOf c.state.objectMode rest).length
    ended := true }
  stack : ∃ frames, c'.stack = frames ++ c.stack ∧ ∀ frame ∈ frames, frame.calm c.state.sync = true
  trace : ∃ events, c'.trace = c.trace ++ rest.map .pushed ++ .ended :: events ∧
    ∀ event ∈ events, event.silent = true

/-- The chunk that comes in next is emitted at once. -/
def Config.bypasses (c : Config Obj) : Bool :=
  c.flows && decide (c.state.length = 0) && !c.state.sync

/-- What `push()` and `unshift()` do on `c` with a given chunk, which comes out of the
decoder as `chunk`. -/
inductive Fills (c : Config Obj) (front : Bool) (given chunk : Chunk Obj) : Config Obj → Prop where
  | idle {c' : Config Obj} (idle : Idle (calm c.state.sync) c c') :
      Fills c front given chunk c'
  | stores {c' : Config Obj} (holds : holdsData c.state given = true)
      (waits : c.bypasses = false) (stored : Stores c c' front chunk) :
      Fills c front given chunk c'
  | passes {c' : Config Obj} (passed : Passes c c' front chunk) : Fills c front given chunk c'
  | ends {c' : Config Obj} (rest : List (Chunk Obj)) (ended : Ends c c' rest)
      (reading : c'.state.reading = false) : Fills c front given chunk c'

theorem elements_length_eq (s : ReadableState Obj) (chunk : Chunk Obj) :
    ((chunk.elements s.objectMode).length : Int) =
      if s.objectMode then 1 else (chunk.size : Int) := by
  cases s.objectMode with
  | true => rfl
  | false => exact congrArg Nat.cast chunk.elements_length

theorem decodeChunk_isSome (env : Environment Obj) (s : ReadableState Obj) (chunk : Chunk Obj)
    (encoding : String) (front : Bool) :
    (decodeChunk env s chunk encoding front).2.isSome = s.decoder.isSome := by
  simp only [decodeChunk]
  split
  · grind
  rename_i none
  rw [none]

theorem Idle.emitIfNeeded (c : Config Obj) : Idle (calm c.state.sync) c (emitIfNeeded c) := by
  simp only [Readable.emitIfNeeded]
  split
  · exact Idle.emitReadable c
  · exact .refl c

theorem addData_spec (env : Environment Obj) (c : Config Obj) (chunk : Chunk Obj)
    (encoding : String) (front : Bool) (admitted : c.state.admits front = true)
    (fit : fits c.state (decodeChunk env c.state chunk encoding front).1 = true) :
    (c.bypasses = false ∧ Stores c (addData env c chunk encoding front) front
        (decodeChunk env c.state chunk encoding front).1) ∨
      Passes c (addData env c chunk encoding front) front
        (decodeChunk env c.state chunk encoding front).1 := by
  have decoder := decodeChunk_isSome env c.state chunk encoding front
  simp only [addData]
  generalize decodeChunk env c.state chunk encoding front = decoded at fit decoder
  obtain ⟨added, after⟩ := decoded
  split
  · rename_i passes
    simp only [Bool.and_eq_true, decide_eq_true_eq, Bool.not_eq_true'] at passes
    refine .inr ⟨admitted, passes.1.2, passes.2, rfl, ⟨after, decoder, rfl⟩, rfl, ?_⟩
    simp [admitChunk]
  rename_i waits
  have idle := Idle.emitIfNeeded ((storeChunk (admitChunk c after front added) front added).push
    .addChunkMore)
  obtain ⟨frames, stack, calm⟩ := idle.stack
  obtain ⟨events, trace, silent⟩ := idle.trace
  refine .inl ⟨Bool.eq_false_iff.mpr waits, admitted, fit, ?_, idle.ticks,
    ⟨after, decoder, idle.store.trans ?_⟩, ?_, ?_⟩
  · intro back
    refine Bool.eq_false_iff.mpr fun reading => ?_
    simpa [storeChunk, admitChunk, back] using idle.reading reading
  · rw [elements_length_eq]
    rfl
  · refine ⟨frames ++ [.addChunkMore], ?_, fun frame member => ?_⟩
    · rw [stack]
      simp [storeChunk, admitChunk]
    rcases mem_append.mp member with new | last
    · exact calm frame new
    rw [mem_singleton.mp last]
    exact calm_of_passive _ _ rfl
  refine ⟨events, ?_, silent⟩
  rw [trace]
  simp [storeChunk, admitChunk]

theorem leftover_spec {env : Environment Obj} {chunk : Chunk Obj}
    (left : leftover env s = some chunk) :
    fits s chunk = true ∧ chunk.elements s.objectMode ≠ [] := by
  simp only [leftover, bind_eq_some_iff, map_eq_some_iff] at left
  obtain ⟨text, ⟨d, decoder, -⟩, result⟩ := left
  split at result
  · cases result
  rename_i notEmpty
  cases result
  refine ⟨by simp [fits, decoder, Chunk.isString], ?_⟩
  cases s.objectMode with
  | true => simp [Chunk.elements]
  | false => simpa [Chunk.elements, Chunk.bytes, Chunk.units] using notEmpty

theorem onEofChunk_spec (env : Environment Obj) (c : Config Obj) (open_ : c.state.ended = false) :
    Ends c (onEofChunk env c) (leftover env c.state).toList ∧
      ((onEofChunk env c).state.reading = true → c.state.reading = true) := by
  simp only [onEofChunk]
  cases left : leftover env c.state with
  | none =>
    have idle := Idle.emitReadable ((c.set fun s => { s with ended := true }).log .ended)
    obtain ⟨events, trace, silent⟩ := idle.trace
    refine ⟨⟨open_, by simp, idle.ticks, idle.store.trans ?_, idle.stack, events, ?_, silent⟩,
      idle.reading⟩
    · simp [ReadableState.store]
    · simp [trace]
  | some chunk =>
    have idle := Idle.emitReadable (((((storeChunk c false chunk).log (.pushed chunk)).set
      fun s => { s with ended := true })).log .ended)
    obtain ⟨events, trace, silent⟩ := idle.trace
    refine ⟨⟨open_, ?_, idle.ticks, idle.store.trans ?_, idle.stack, events, ?_, silent⟩,
      idle.reading⟩
    · simpa using leftover_spec left
    · simp only [toList_some, elementsOf_cons, elementsOf_nil, append_nil]
      rw [elements_length_eq]
      rfl
    rw [trace]
    simp [storeChunk]

theorem readableAddChunk_spec (env : Environment Obj) (c : Config Obj) (chunk : Chunk Obj)
    (encoding : String) (front : Bool)
    (fit : holdsData c.state chunk = true →
      fits c.state (decodeChunk env c.state chunk encoding front).1 = true) :
    Fills c front chunk (decodeChunk env c.state chunk encoding front).1
      (readableAddChunk env c chunk encoding front) := by
  have returns : Idle (calm c.state.sync) c (c.push .addChunkReturn) :=
    .push c (calm_of_passive _ _ rfl)
  have refused (er : StreamError) : Idle (calm c.state.sync) c
      ((c.push .addChunkReturn).emit (.error er)) :=
    returns.trans (.emit _ rfl (calm_of_passive _ _ rfl))
  simp only [readableAddChunk]
  split
  · exact .idle (refused _)
  split
  · split
    · exact .idle ((Idle.set c rfl (by simp)).trans (.addChunkReturn _))
    rename_i open_
    let d := (c.set fun s => { s with reading := false }).push .addChunkReturn
    obtain ⟨ends, reading⟩ := onEofChunk_spec env d (by simpa [d] using open_)
    obtain ⟨frames, stack, calm⟩ := ends.stack
    refine .ends _ ⟨ends.open_, ends.fit, ends.ticks, ends.store,
      ⟨frames ++ [.addChunkReturn], ?_, ?_⟩,
      ends.trace⟩ (Bool.eq_false_iff.mpr fun still => absurd (reading still) (by simp [d]))
    · rw [stack]
      simp [d]
    intro frame member
    rcases mem_append.mp member with new | last
    · exact calm frame new
    rw [mem_singleton.mp last]
    exact calm_of_passive _ _ rfl
  split
  · rename_i holds
    split
    · exact .idle (refused _)
    split
    · exact .idle (refused _)
    rename_i open_ notOver
    have admitted : c.state.admits front = true := by
      cases front with
      | true => simpa [ReadableState.admits] using notOver
      | false => simpa [ReadableState.admits] using open_
    rcases addData_spec env c chunk encoding front admitted (fit holds) with
      ⟨waits, stored⟩ | passed
    · exact .stores holds waits stored
    · exact .passes passed
  refine .idle ?_
  split
  · exact .addChunkReturn c
  · exact (Idle.set c rfl (by simp)).trans (.addChunkReturn _)

end IoJs.Stream.Readable
