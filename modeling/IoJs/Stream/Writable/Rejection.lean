import IoJs.Buffer.Utf8Writer
import IoJs.Stream.Writable.Aside
import IoJs.Stream.Writable.Finish

/-!
# Writes that are rejected

`write()` refuses a chunk after the end, and one that is neither a Buffer nor a string outside of
object mode; it emits an error before it has changed anything. It throws when it cannot decode a
string or read the length of the chunk, but then it has counted the callback already. So a rejected
write leaves the stream as it was if and only if it does not throw (`rejected_intact_iff`).
-/

namespace IoJs.Stream.Writable

open IoJs.Buffer IoJs.Library IoJs.RegExp Option

variable {Obj : Type}

/-! ## The code -/

/-- An environment whose Buffer constructor throws where it gives nothing -/
structure ThrowingEnvironment where
  writev : Bool
  newBuffer : JSString → String → Option (List UInt8)

namespace ThrowingEnvironment

variable (env : ThrowingEnvironment)

/-- The same without exceptions -/
def total : Environment where
  writev := env.writev
  newBuffer units encoding := (env.newBuffer units encoding).getD []

/-- `new Buffer(chunk, encoding)` throws in `decodeChunk`. -/
def decodeThrows (state : WritableState) (chunk : Chunk Obj) (encoding : String) : Bool :=
  match chunk with
  | .string units =>
    !state.objectMode && state.decodeStrings && (env.newBuffer units encoding).isNone
  | _ => false

def writeOrBuffer (c : Config Obj) (chunk : Chunk Obj) (encoding : String) : Config Obj :=
  if env.decodeThrows c.state chunk encoding then c.log .threw
  else Writable.writeOrBuffer env.total c chunk encoding

/-- `Writable.prototype.write` -/
def write (c : Config Obj) (chunk : Chunk Obj) (encoding : Option String) : Config Obj :=
  if c.state.ended then refuse c .writeAfterEnd
  else if validChunk c.state chunk then
    env.writeOrBuffer (c.set fun s => { s with pendingcb := s.pendingcb + 1 }) chunk
      (resolveEncoding c.state chunk encoding)
  else refuse c .invalidChunk

/-- `write()` throws: the stream has not ended, it is not in object mode, and there is no chunk, or
`new Buffer` throws. -/
def throws (state : WritableState) (chunk : Chunk Obj) (encoding : Option String) : Bool :=
  !state.ended && !state.objectMode &&
    (chunk.isNullish || env.decodeThrows state chunk (resolveEncoding state chunk encoding))

/-- `Writable.prototype.end` up to the end of `write` -/
def end_ (c : Config Obj) (chunk : Chunk Obj) (encoding : Option String) (cb : Option Nat) :
    Config Obj :=
  if chunk.isNullish then c.push (.endUncork cb)
  -- The exception leaves `end()`, too.
  else if env.throws c.state chunk encoding then env.write c chunk encoding
  else env.write (c.push (.endUncork cb)) chunk encoding

/-- One step; the other calls do not decode anything. -/
def step (c : Config Obj) : Action Obj → Option (Config Obj)
  | .write chunk encoding => if c.userTurn then some (env.write c chunk encoding) else none
  | .end_ chunk encoding cb => if c.userTurn then some (env.end_ c chunk encoding cb) else none
  | a => Writable.step env.total c a

end ThrowingEnvironment

/-! ## The specification -/

/-- The call throws, or it emits one of its own errors. -/
inductive Rejected (c c' : Config Obj) : Prop where
  | threw (trace : c'.trace = c.trace ++ [.threw])
  | refused (er : StreamError) (own : er ≠ .reported)
      (trace : c'.trace = c.trace ++ [.emitted (.error er)])

/-- What a rejected write leaves as it was -/
structure Intact (c c' : Config Obj) : Prop where
  length : c'.state.length = c.state.length
  pendingcb : c'.state.pendingcb = c.state.pendingcb
  needDrain : c'.state.needDrain = c.state.needDrain
  bufferedRequest : c'.state.bufferedRequest = c.state.bufferedRequest
  lastBufferedRequest : c'.state.lastBufferedRequest = c.state.lastBufferedRequest
  writing : c'.state.writing = c.state.writing
  writelen : c'.state.writelen = c.state.writelen
  -- the `WriteReq`s that the references lead to
  heap : c'.heap = c.heap

/-- The runs of a stream -/
abbrev Runs (env : ThrowingEnvironment) : Config Obj → Config Obj → Prop :=
  Run env.step fun _ _ => True

/-- `'finish'` may still be emitted. -/
def CanFinish (env : ThrowingEnvironment) (c : Config Obj) : Prop :=
  ∃ c', Runs env c c' ∧ finishes c.trace < finishes c'.trace

variable {env : ThrowingEnvironment} {c c' d : Config Obj} {chunk : Chunk Obj}
  {encoding : Option String}

/-! ## What `write()` does -/

theorem mode_of_decodeThrows {encoding : String}
    (decodes : env.decodeThrows c.state chunk encoding = true) :
    c.state.objectMode = false ∧ ∃ units, chunk = .string units := by
  cases chunk with
  | string => grind [ThrowingEnvironment.decodeThrows]
  | _ => cases decodes

theorem write_of_decodes
    (decodes : env.decodeThrows c.state chunk (resolveEncoding c.state chunk encoding) = false) :
    env.write c chunk encoding = Writable.write env.total c chunk encoding := by
  rw [ThrowingEnvironment.write, Writable.write]
  split
  · rfl
  split
  · refine if_neg ?_
    rw [Bool.not_eq_true]
    exact decodes
  · rfl

theorem write_of_not_throws (quiet : env.throws c.state chunk encoding = false) :
    env.write c chunk encoding = Writable.write env.total c chunk encoding := by
  by_cases ended : c.state.ended = true
  · simp [ThrowingEnvironment.write, Writable.write, ended]
  apply write_of_decodes
  by_contra throws
  rw [Bool.not_eq_false] at throws
  obtain ⟨mode, -⟩ := mode_of_decodeThrows throws
  simp [ThrowingEnvironment.throws, ended, mode, throws] at quiet

theorem write_of_nullish (open_ : c.state.ended = false) (mode : c.state.objectMode = false)
    (nullish : chunk.isNullish = true) :
    Writable.write env.total c chunk encoding = c.charge.log .threw := by
  have valid : validChunk c.state chunk = true := by
    cases chunk with
    | object => cases nullish
    | _ => rfl
  have unmeasured : chunkLength c.charge.state (newRequest env.total c.charge chunk
      (resolveEncoding c.state chunk encoding)).chunk = none := by
    have mode' : c.charge.state.objectMode = false := mode
    rw [chunkLength, mode', if_neg Bool.false_ne_true]
    cases chunk with
    | null => rfl
    | undefined => rfl
    | _ => cases nullish
  rw [Writable.write, open_, if_neg Bool.false_ne_true, if_pos valid]
  change Writable.writeOrBuffer env.total c.charge chunk _ = _
  simp only [Writable.writeOrBuffer, unmeasured]

theorem write_of_throws (throws : env.throws c.state chunk encoding = true) :
    env.write c chunk encoding = c.charge.log .threw := by
  simp only [ThrowingEnvironment.throws, Bool.and_eq_true, Bool.not_eq_true', Bool.or_eq_true]
    at throws
  obtain ⟨⟨open_, mode⟩, either⟩ := throws
  cases decodes : env.decodeThrows c.state chunk (resolveEncoding c.state chunk encoding) with
  | true =>
    obtain ⟨-, units, rfl⟩ := mode_of_decodeThrows decodes
    rw [ThrowingEnvironment.write, open_, if_neg Bool.false_ne_true]
    exact if_pos decodes
  | false =>
    rw [write_of_decodes decodes]
    refine write_of_nullish open_ mode ?_
    rw [decodes] at either
    exact either.resolve_right Bool.false_ne_true

theorem accepted_writeOrBuffer {env : Environment} {encoding : String} {len : Nat}
    (measured : chunkLength c.state (newRequest env c chunk encoding).chunk = some len) :
    accepted (Writable.writeOrBuffer env c chunk encoding).trace =
      accepted c.trace ++ [newRequest env c chunk encoding] := by
  simp only [Writable.writeOrBuffer, measured]
  split
  · simp [bufferRequest, accept]
  simp only [doWriteOne, doWrite, accept, Config.push_trace, Config.log_trace, Config.set_trace,
    accepted_append_singleton, List.append_nil]

theorem refused_of_rejected (quiet : env.throws c.state chunk encoding = false)
    (rejected : Rejected c (env.write c chunk encoding)) :
    ∃ er, er ≠ .reported ∧ env.write c chunk encoding = refuse c er := by
  have same : accepted (env.write c chunk encoding).trace = accepted c.trace := by
    rcases rejected with trace | ⟨er, own, trace⟩
    · simp [trace, accepted_append_singleton]
    · simp [trace, accepted_append_singleton]
  rw [write_of_not_throws quiet] at same ⊢
  by_cases ended : c.state.ended = true
  · exact ⟨.writeAfterEnd, by decide, if_pos ended⟩
  by_cases valid : validChunk c.state chunk = true
  · exfalso
    rw [Writable.write, if_neg ended, if_pos valid] at same
    change accepted (Writable.writeOrBuffer env.total c.charge chunk _).trace = _ at same
    cases measured : chunkLength c.charge.state (newRequest env.total c.charge chunk
        (resolveEncoding c.state chunk encoding)).chunk with
    | none =>
      obtain ⟨mode, nullish⟩ := nullish_of_unmeasured (c := c.charge) valid measured
      have mode' : c.state.objectMode = false := mode
      simp [ThrowingEnvironment.throws, ended, mode', nullish] at quiet
    | some len =>
      rw [accepted_writeOrBuffer measured] at same
      exact absurd (List.append_right_eq_self.mp same) (List.cons_ne_nil _ _)
  refine ⟨.invalidChunk, by decide, ?_⟩
  simp [Writable.write, ended, valid]

/-! ## A refused write changes nothing that the stream does later -/

namespace Aside

theorem throwingWrite (aside : Aside c d) (chunk : Chunk Obj) (encoding : Option String) :
    Aside (env.write c chunk encoding) (env.write d chunk encoding) := by
  have charged := aside.set fun s => { s with pendingcb := s.pendingcb + 1 }
  simp only [ThrowingEnvironment.write, ThrowingEnvironment.writeOrBuffer, Config.set_state,
    aside.state]
  refine .ite (aside.refuse _) (.ite (.ite ?_ ?_) (aside.refuse _))
  · exact charged.log .threw
  · exact charged.writeOrBuffer _ _

theorem throwingEnd (aside : Aside c d) (chunk : Chunk Obj) (encoding : Option String)
    (cb : Option Nat) : Aside (env.end_ c chunk encoding cb) (env.end_ d chunk encoding cb) := by
  simp only [ThrowingEnvironment.end_, aside.state]
  exact .ite (aside.push _) (.ite (aside.throwingWrite _ _) ((aside.push _).throwingWrite _ _))

theorem pass {er : StreamError} {after : List Tick} (aside : Aside c d) (empty : c.stack = [])
    (first : d.ticks = .refused er :: after) :
    Runs env d { d with ticks := after } := by
  have idle : d.stack = [] := aside.stack.trans empty
  let called : Config Obj := { d with ticks := after, stack := [.user (.refused er)] }
  have ticked : env.step d .tick = some called := by
    simp only [ThrowingEnvironment.step, Writable.step, idle, first, Writable.runTick, Config.push]
    rfl
  have returned : env.step called .ret = some { d with ticks := after } := by
    change some ({ d with ticks := after, stack := [] } : Config Obj) = _
    rw [← idle]
  exact .tail (.tail .refl trivial ticked) trivial returned

theorem once {a : Action Obj} {d' : Config Obj} (stepped : env.step d a = some d') :
    Runs env d d' :=
  .tail .refl trivial stepped

theorem call {a : Action Obj} {method : Config Obj → Config Obj} (aside : Aside c d)
    (calls : ∀ c, env.step c a = if c.userTurn = true then some (method c) else none)
    (keeps : Aside (method c) (method d)) (stepped : env.step c a = some c') :
    ∃ d', Runs env d d' ∧ Aside c' d' := by
  rw [calls] at stepped
  obtain ⟨turn, same⟩ := ite_none_right_eq_some.mp stepped
  have called : env.step d a = some (method d) :=
    (calls d).trans (if_pos (aside.userTurn.trans turn))
  exact ⟨_, once called, some.inj same ▸ keeps⟩

theorem complete {index : Nat} {failed : Bool} (aside : Aside c d)
    (stepped : env.step c (.complete index failed) = some c') :
    ∃ d', Runs env d d' ∧ Aside c' d' := by
  obtain ⟨turn, same⟩ := ite_none_right_eq_some.mp stepped
  split at same
  · rename_i handover cb found kept
    rw [← aside.outstanding] at found
    rw [← aside.state] at kept
    have completed : env.step d (.complete index failed) =
        some (Writable.onwrite env.total d index handover cb failed) := by
      simp only [ThrowingEnvironment.step, Writable.step, found, kept]
      exact if_pos (aside.userTurn.trans turn)
    exact ⟨_, once completed, some.inj same ▸ aside.onwrite index handover cb failed⟩
  · cases same

theorem step_tick {tick : Tick} {rest : List Tick} (empty : c.stack = [])
    (first : c.ticks = tick :: rest) :
    env.step c .tick = some (Writable.runTick { c with ticks := rest } tick) := by
  simp only [ThrowingEnvironment.step, Writable.step, empty, first]

theorem sameTick {tick : Tick} {rest rest' : List Tick} (aside : Aside c d) (empty : c.stack = [])
    (first : c.ticks = tick :: rest) (first' : d.ticks = tick :: rest') (among : Among rest rest')
    (stepped : env.step c .tick = some c') : ∃ d', Runs env d d' ∧ Aside c' d' := by
  have same := some.inj ((step_tick empty first).symm.trans stepped)
  have taken : Aside { c with ticks := rest } { d with ticks := rest' } :=
    { aside with ticks := among }
  exact ⟨_, once (step_tick (aside.stack.trans empty) first'), same ▸ taken.runTick tick⟩

theorem tick (aside : Aside c d) (stepped : env.step c .tick = some c') :
    ∃ d', Runs env d d' ∧ Aside c' d' := by
  obtain ⟨tick, rest, empty, first⟩ : ∃ tick rest, c.stack = [] ∧ c.ticks = tick :: rest := by
    simp only [ThrowingEnvironment.step, Writable.step] at stepped
    split at stepped
    · rename_i tick rest empty first
      exact ⟨tick, rest, empty, first⟩
    · cases stepped
  have ticks := aside.ticks
  rw [first] at ticks
  rcases ticks.of_cons with ⟨rest', split, among⟩ | ⟨er, split⟩
  · exact aside.sameTick empty first split among stepped
  -- the refused callback has its turn first
  have passed : Runs env d { d with ticks := tick :: rest } := aside.pass empty split
  have without : Aside c { d with ticks := tick :: rest } := { aside with ticks := first ▸ .gone _ }
  obtain ⟨d', run, aside'⟩ := without.sameTick empty first rfl (.gone rest) stepped
  exact ⟨d', passed.trans run, aside'⟩

/-- **The stream without the refused callback** can follow each step. -/
theorem step {a : Action Obj} (aside : Aside c d) (stepped : env.step c a = some c') :
    ∃ d', Runs env d d' ∧ Aside c' d' := by
  cases a with
  | write chunk encoding =>
    exact aside.call (fun _ => rfl) (aside.throwingWrite chunk encoding) stepped
  | cork => exact aside.call (fun _ => rfl) (aside.set _) stepped
  | uncork => exact aside.call (fun _ => rfl) aside.uncork stepped
  | end_ chunk encoding cb =>
    exact aside.call (fun _ => rfl) (aside.throwingEnd chunk encoding cb) stepped
  | complete => exact aside.complete stepped
  | ret =>
    simp only [ThrowingEnvironment.step, Writable.step] at stepped
    split at stepped
    · rename_i code rest top
      refine ⟨{ d with stack := rest }, once (a := .ret) ?_, ?_⟩
      · simp only [ThrowingEnvironment.step, Writable.step, aside.stack, top]
      · exact some.inj stepped ▸ aside.withStack rest
    · cases stepped
  | tick => exact aside.tick stepped
  | resume =>
    simp only [ThrowingEnvironment.step, Writable.step] at stepped
    split at stepped
    · rename_i frame rest top
      obtain ⟨d', resumed, aside'⟩ := (aside.withStack rest).resume frame stepped
      refine ⟨d', once (a := .resume) ?_, aside'⟩
      simpa [ThrowingEnvironment.step, Writable.step, aside.stack, top] using resumed
    · cases stepped

end Aside

/-- It can follow each run. -/
theorem Aside.run (aside : Aside c d) (run : Runs env c c') : ∃ d', Runs env d d' ∧
    Aside c' d' := by
  induction run with
  | refl => exact ⟨d, .refl, aside⟩
  | tail _ _ stepped ih =>
    obtain ⟨d', run, aside'⟩ := ih
    obtain ⟨d'', run', aside''⟩ := aside'.step stepped
    exact ⟨d'', run.trans run', aside''⟩

theorem intact_refuse (c : Config Obj) (er : StreamError) : Intact c (refuse c er) :=
  ⟨rfl, rfl, rfl, rfl, rfl, rfl, rfl, rfl⟩

theorem canFinish_refuse {er : StreamError} (can : CanFinish env c) :
    CanFinish env (refuse c er) := by
  obtain ⟨c', run, more⟩ := can
  -- the listeners return, and the callback becomes a tick
  let d : Config Obj :=
    { c with ticks := c.ticks ++ [.refused er], trace := c.trace ++ [.emitted (.error er)] }
  have back : Runs env (refuse c er) d := by
    have returned : env.step (refuse c er) .ret =
        some { refuse c er with stack := .refuse er :: c.stack } := rfl
    have resumed : env.step ({ refuse c er with stack := .refuse er :: c.stack } : Config Obj)
        .resume = some d := rfl
    exact .tail (.tail .refl trivial returned) trivial resumed
  have quiet : finishes (refuse c er).trace = finishes c.trace := by
    change finishes (c.trace ++ [.emitted (.error er)]) = _
    rw [finishes_append]
    rfl
  have aside : Aside c d := by
    refine ⟨rfl, rfl, rfl, rfl, rfl, ?_, ?_, quiet⟩
    · have waits := Among.waits er c.ticks []
      rwa [List.append_nil] at waits
    · grind [accepted_append_singleton]
  obtain ⟨d', run', aside'⟩ := aside.run run
  refine ⟨d', back.trans run', ?_⟩
  rw [quiet, aside'.finishes]
  exact more

/-! ## The theorem -/

/-- **A rejected write leaves a stream as it was, so that it can still finish, if and only if it
does not throw.** -/
theorem rejected_intact_iff (env : ThrowingEnvironment) (c : Config Obj) (chunk : Chunk Obj)
    (encoding : Option String) :
    (Rejected c (env.write c chunk encoding) → Intact c (env.write c chunk encoding) ∧
      (CanFinish env c → CanFinish env (env.write c chunk encoding))) ↔
      env.throws c.state chunk encoding = false := by
  constructor
  · intro intact
    by_contra throws
    rw [Bool.not_eq_false] at throws
    have thrown := write_of_throws throws
    have counted := (intact (.threw (congrArg Config.trace thrown))).1.pendingcb
    rw [thrown] at counted
    change c.state.pendingcb + 1 = c.state.pendingcb at counted
    omega
  intro quiet rejected
  obtain ⟨er, -, refused⟩ := refused_of_rejected quiet rejected
  rw [refused]
  exact ⟨intact_refuse c er, canFinish_refuse⟩

/-! ## An encoding that is not known -/

/-- A stream without `_writev`, with the constructor of Buffer on strings that V8 keeps inside -/
def bufferEnvironment : ThrowingEnvironment where
  writev := false
  newBuffer units encoding :=
    let string : Str := ⟨units, .internal, fun narrow => absurd narrow (by decide)⟩
    string.fromString false (writeUtf8 string.storage.maxSize) (js encoding)

/-- `write('abc', 'utf9')` -/
theorem not_intact_of_unknown_encoding :
    ¬∀ (env : ThrowingEnvironment) (options : Options) (c : Config Empty),
      Runs env (Config.new options) c → c.userTurn = true →
      ∀ (chunk : Chunk Empty) (encoding : Option String),
        Rejected c (env.write c chunk encoding) → Intact c (env.write c chunk encoding) ∧
          (CanFinish env c → CanFinish env (env.write c chunk encoding)) := by
  intro claim
  have throws : bufferEnvironment.throws (Config.new {} : Config Empty).state
      (.string (js "abc") : Chunk Empty) (some "utf9") = true := by decide
  have thrown := write_of_throws (c := (Config.new {} : Config Empty)) throws
  have rejected : Rejected (Config.new {} : Config Empty) _ := .threw (congrArg Config.trace thrown)
  have counted := (claim bufferEnvironment {} (.new {}) .refl rfl _ _ rejected).1.pendingcb
  exact absurd counted (by decide)

end IoJs.Stream.Writable
