import IoJs.Stream.Readable.Refinement

/-!
# When `'end'` is emitted

`endReadable` is called from three places of `read()`, and what it queues emits `'end'`
only if nothing was put back in between. `end_is_final` is about every proper run: `'end'`
is emitted once at most, after the stream was ended and when everything that came in has
been delivered, and nothing is delivered afterwards.
-/

namespace IoJs.Stream.Readable

open IoJs.Library List

variable {Obj : Type} {event : Event Obj} {kind : Frame Obj → Bool} {c c' b : Config Obj}
  {before after : List (Event Obj)} {env : Environment Obj}

/-- What `before` and `after` an emission of `'end'` should be. -/
structure Final (objectMode : Bool) (before after : List (Event Obj)) : Prop where
  once : .emitted .end_ ∉ before ∧ .emitted .end_ ∉ after
  ended : .ended ∈ before
  /-- everything that came in has been delivered -/
  complete : Tape.Plays (moves objectMode before) []
  nothingDelivered : delivered after = []
  nothingReturned : returned after = []

/-- Every emission of `'end'` is final. -/
def EndIsFinal (objectMode : Bool) (events : List (Event Obj)) : Prop :=
  ∀ i, events[i]? = some (.emitted .end_) → Final objectMode (events.take i) (events.drop (i + 1))

theorem not_mem_of_silent {events : List (Event Obj)}
    (silent : ∀ event ∈ events, event.silent = true) (loud : event.silent = false) :
    event ∉ events := by
  intro member
  rw [silent event member] at loud
  cases loud

/-! ## One step -/

/-- What a step adds to the trace, unless it emits `'end'`. -/
structure News (c c' : Config Obj) (events : List (Event Obj)) : Prop where
  trace : c'.trace = c.trace ++ events
  calm : .threw ∉ events
  notEnd : .emitted .end_ ∉ events
  ended : c'.state.ended = true → c.state.ended = true ∨ .ended ∈ events
  endEmitted : c'.state.endEmitted = c.state.endEmitted

theorem Idle.news (idle : Idle kind c c') : ∃ events, News c c' events := by
  obtain ⟨events, trace, silent⟩ := idle.trace
  exact ⟨events, trace, not_mem_of_silent silent rfl, not_mem_of_silent silent rfl,
    fun ended => .inl (idle.ended ▸ ended), congrArg Store.endEmitted idle.store⟩

theorem inward_loud (front : Bool) (chunk : Chunk Obj) :
    Event.inward front chunk ≠ .threw ∧ Event.inward front chunk ≠ .emitted .end_ := by
  cases front <;> simp [Event.inward]

theorem Change.news (change : Change c c') : (∃ events, News c c' events) ∨
    (c.stack = [] ∧ c.state.ended = true ∧ c.state.endEmitted = false ∧ c.state.length = 0 ∧
      c' = endReadableNow c) := by
  cases change with
  | own own =>
    cases own with
    | idle idle => exact .inl idle.news
    | takes k chunk before taken =>
      obtain ⟨events, news⟩ := before.news
      obtain ⟨left, -, store⟩ := taken.store
      refine .inl ⟨events ++ [.emitted (.data chunk)], ?_, ?_, ?_, fun ended => ?_, ?_⟩
      · rw [taken.trace, news.trace, append_assoc]
      · simpa using news.calm
      · simpa using news.notEnd
      · have ended := news.ended ((congrArg Store.ended store).symm.trans ended)
        exact ended.imp id (mem_append_left _)
      · exact (congrArg Store.endEmitted store).trans news.endEmitted
    | calls nOrig before open_ same =>
      obtain ⟨events, news⟩ := before.news
      rw [same]
      exact .inl ⟨events, news.trace, news.calm, news.notEnd, news.ended, news.endEmitted⟩
    | finishes alone ended open_ none same => exact .inr ⟨alone, ended, open_, none, same⟩
  | fills front given chunk filled =>
    obtain ⟨notThrew, notEnd⟩ := inward_loud front chunk
    cases filled with
    | idle idle => exact .inl idle.news
    | stores holds waits stored =>
      obtain ⟨events, trace, silent⟩ := stored.trace
      obtain ⟨decoder, -, store⟩ := stored.store
      refine .inl ⟨_, trace, ?_, ?_, fun ended => .inl ?_, congrArg Store.endEmitted store⟩
      · simpa [notThrew.symm] using not_mem_of_silent silent rfl
      · simpa [notEnd.symm] using not_mem_of_silent silent rfl
      · exact (congrArg Store.ended store).symm.trans ended
    | passes passed =>
      obtain ⟨decoder, -, store⟩ := passed.store
      refine .inl ⟨_, passed.trace, ?_, ?_, fun ended => .inl ?_, congrArg Store.endEmitted store⟩
      · simp [notThrew.symm]
      · simp [notEnd.symm]
      · exact (congrArg Store.ended store).symm.trans ended
    | ends rest ended =>
      obtain ⟨events, trace, silent⟩ := ended.trace
      rw [append_assoc] at trace
      refine .inl ⟨_, trace, ?_, ?_, fun _ => .inr ?_, congrArg Store.endEmitted ended.store⟩
      · simpa using not_mem_of_silent silent rfl
      · simpa using not_mem_of_silent silent rfl
      · simp
  | encodes encoding free same =>
    subst same
    exact .inl ⟨[], by simp [setEncoding], by simp, by simp, .inl, rfl⟩

/-- After `'end'` nothing happens. -/
structure Over (c : Config Obj) (before after : List (Event Obj)) : Prop where
  split : c.trace = before ++ .emitted .end_ :: after
  final : Final c.state.objectMode before after
  endEmitted : c.state.endEmitted = true
  ended : c.state.ended = true
  length : c.state.length = 0
  quiet : ∀ frame ∈ c.stack, frame.quiet = true

section

variable (past : Over c before after)
include past

theorem Over.idle (idle : Idle kind c c')
    (quiet : ∀ frame, kind frame = true → frame.quiet = true) :
    ∃ after', Over c' before after' := by
  obtain ⟨events, trace, silent⟩ := idle.trace
  obtain ⟨frames, stack, all⟩ := idle.stack
  have final := past.final
  refine ⟨after ++ events, ?_, ⟨⟨final.once.1, ?_⟩, final.ended, ?_, ?_, ?_⟩, ?_, ?_, ?_, ?_⟩
  · rw [trace, past.split, append_assoc, cons_append]
  · simpa using ⟨final.once.2, not_mem_of_silent silent rfl⟩
  · rw [idle.objectMode]
    exact final.complete
  · rw [delivered_append, final.nothingDelivered, delivered_of_silent silent, append_nil]
  · rw [returned_append, final.nothingReturned, returned_of_silent silent, append_nil]
  · exact (congrArg Store.endEmitted idle.store).trans past.endEmitted
  · exact idle.ended.trans past.ended
  · exact idle.length.trans past.length
  rw [stack]
  intro frame member
  rcases mem_append.mp member with new | old
  · exact quiet frame (all frame new)
  · exact past.quiet frame old

theorem Over.change (change : Change c c') : ∃ after', Over c' before after' := by
  have closed (front : Bool) (admitted : c.state.admits front = true) : False := by
    cases front <;> simp [ReadableState.admits, past.ended, past.endEmitted] at admitted
  cases change with
  | own own =>
    cases own with
    | idle idle => exact past.idle idle fun _ => id
    | takes k chunk idle taken =>
      have positive := taken.positive
      have within := taken.within
      rw [idle.length, past.length] at within
      omega
    | calls nOrig idle open_ same => exact absurd past.ended (by simp [open_])
    | finishes alone ended open_ => exact absurd past.endEmitted (by simp [open_])
  | fills front given chunk filled =>
    cases filled with
    | idle idle => exact past.idle idle fun frame => frame.quiet_of_calm _
    | stores holds waits stored => exact (closed front stored.admitted).elim
    | passes passed => exact (closed front passed.admitted).elim
    | ends rest ended => exact absurd past.ended (by simp [ended.open_])
  | encodes encoding free same =>
    subst same
    exact ⟨after, past.split, past.final, past.endEmitted, past.ended, past.length, past.quiet⟩

theorem Over.base (base : Base c b) : Over b before after := by
  rcases base.popped with ⟨suffix, trace⟩ | ⟨chunk, top, -⟩
  · exact ⟨trace.trans past.split, base.objectMode.symm ▸ past.final,
      base.endEmitted.trans past.endEmitted, base.ended.trans past.ended,
      base.length.trans past.length, fun frame member => past.quiet frame (suffix.subset member)⟩
  · cases past.quiet _ (top ▸ mem_cons_self)

end

/-- Where a run is. -/
inductive EndPhase (c : Config Obj) : Prop where
  | before (open_ : c.state.endEmitted = false) (none : .emitted .end_ ∉ c.trace)
  | after (before after : List (Event Obj)) (past : Over c before after)

/-- What holds throughout a proper run. -/
structure EndInv (c : Config Obj) : Prop where
  sequence : SequenceInv c
  ended : c.state.ended = true → .ended ∈ c.trace
  calm : .threw ∉ c.trace
  phase : EndPhase c

theorem Base.mem_trace (base : Base c b)
    (loud : ∀ ret, event ≠ .result ret) : event ∈ b.trace ↔ event ∈ c.trace := by
  rcases base.popped with ⟨-, trace⟩ | ⟨chunk, -, trace⟩
  · rw [trace]
  rw [trace]
  simp [loud]

/-- One proper step keeps what holds of the end. -/
theorem EndInv.step {a : Action Obj} (inv : EndInv c)
    (proper : Proper c a) (stepped : step env c a = some c') : EndInv c' := by
  obtain ⟨b, base, change⟩ := (inv.sequence.inv.stepped proper stepped).change
  have sequence := inv.sequence.step proper stepped
  have calm : .threw ∉ b.trace := by
    rw [base.mem_trace (by simp)]
    exact inv.calm
  have ended (past : b.state.ended = true) : .ended ∈ b.trace := by
    rw [base.mem_trace (by simp)]
    exact inv.ended (base.ended.symm.trans past)
  cases inv.phase with
  | before open_ none =>
    have none' : .emitted .end_ ∉ b.trace := by
      rw [base.mem_trace (by simp)]
      exact none
    rcases change.news with ⟨events, news⟩ | ⟨alone, past, -, zero, same⟩
    · refine ⟨sequence, fun past => ?_, ?_, .before ?_ ?_⟩
      · rw [news.trace]
        exact mem_append.mpr ((news.ended past).imp ended id)
      · rw [news.trace]
        simpa using ⟨calm, news.calm⟩
      · exact news.endEmitted.trans (base.endEmitted.trans open_)
      rw [news.trace]
      simpa using ⟨none', news.notEnd⟩
    have open' : b.state.endEmitted = false := base.endEmitted.trans open_
    have delivered : Tape.Plays (moves b.state.objectMode b.trace) [] := by
      rw [← (base.sound inv.sequence.inv.sound).sequence_eq_nil zero]
      exact base.plays inv.sequence.plays
    rw [endReadableNow_eq open' zero] at same
    subst same
    refine ⟨sequence, fun _ => ?_, ?_, .after b.trace [] ?_⟩
    · simpa using ended past
    · simpa using calm
    exact ⟨rfl, ⟨⟨none', by simp⟩, ended past, delivered, rfl, rfl⟩, rfl, past, zero,
      by simp [alone, Frame.quiet]⟩
  | after before after past =>
    obtain ⟨after', past'⟩ := (past.base base).change change
    refine ⟨sequence, fun _ => ?_, ?_, .after before after' past'⟩
    · rw [past'.split]
      exact mem_append_left _ past'.final.ended
    rcases change.news with ⟨events, news⟩ | ⟨-, -, open_, -, -⟩
    · rw [news.trace]
      simpa using ⟨calm, news.calm⟩
    rw [(past.base base).endEmitted] at open_
    cases open_

/-- It holds in every proper run. -/
theorem EndInv.of_run {options : Options}
    (run : Run (Readable.step env) Proper (Config.new options) c) : EndInv c := by
  refine run.invariant EndInv ⟨⟨.new options, .nil, nil_subperm⟩, ?_, ?_, .before rfl ?_⟩
    fun inv proper stepped => inv.step proper stepped
  · intro ended
    cases ended
  · exact not_mem_nil
  · exact not_mem_nil

theorem Final.endIsFinal {objectMode : Bool} (final : Final objectMode before after) :
    EndIsFinal objectMode (before ++ .emitted .end_ :: after) := by
  intro i here
  rcases Nat.lt_trichotomy i before.length with early | same | late
  · rw [List.getElem?_append_left early] at here
    exact absurd (mem_of_getElem? here) final.once.1
  · subst same
    simpa using final
  rw [List.getElem?_append_right late.le] at here
  obtain ⟨k, rest⟩ : ∃ k, i - before.length = k + 1 := ⟨i - before.length - 1, by omega⟩
  rw [rest, List.getElem?_cons_succ] at here
  exact absurd (mem_of_getElem? here) final.once.2

/-- **`'end'` is emitted at most once, after the stream was ended and everything that came
in was delivered; nothing is delivered or returned afterwards, `length` is 0 from then on,
and `endReadable` never throws**, in every proper run. -/
theorem end_is_final {env : Environment Obj} {options : Options} {c : Config Obj}
    (run : Run (step env) Proper (Config.new options) c) :
    EndIsFinal options.objectMode c.trace ∧
      (.emitted .end_ ∈ c.trace → c.state.length = 0 ∧ c.state.sequence = []) ∧
      .threw ∉ c.trace := by
  have inv := EndInv.of_run run
  have mode := objectMode_of_run run
  cases inv.phase with
  | before open_ none =>
    refine ⟨?_, fun emitted => absurd emitted none, inv.calm⟩
    intro i here
    exact absurd (mem_of_getElem? here) none
  | after before after past =>
    refine ⟨?_, fun _ => ⟨past.length, ?_⟩, inv.calm⟩
    · rw [past.split, ← mode]
      exact past.final.endIsFinal
    · exact inv.sequence.inv.sound.sequence_eq_nil past.length

/-- A stream with one chunk ends. -/
theorem end_is_final_after_chunk :
    ∃ c : Config Empty, .emitted .end_ ∈ c.trace ∧ delivered c.trace = [.buffer [1]] ∧
      EndIsFinal false c.trace := by
  obtain ⟨c, run, emitted, one⟩ := Run.exists_of_exec (step plainEnvironment) Proper
    (Config.new {} : Config Empty)
    (fun c => .emitted .end_ ∈ c.trace ∧ delivered c.trace = [.buffer [1]])
    [.push (.buffer [1]) "", .resume, .push .null "", .resume, .read none, .ret, .resume,
      .tick, .tick, .ret, .resume, .tick, .ret] (by decide)
  exact ⟨c, emitted, one, (end_is_final run).1⟩

/-- **`'end'` is emitted although three bytes were not delivered**: `read(5)` finds five
bytes and calls `_read`, which takes three of them; then `read(5)` takes the other two and
subtracts five. -/
theorem end_too_early :
    ∃ c : Config Empty, Run (step plainEnvironment) (fun _ _ => True) (Config.new {}) c ∧
      c.state.buffer = [.buffer [6, 7, 8]] ∧ ¬ EndIsFinal false c.trace := by
  obtain ⟨c, run, buffer, emitted, none, differ⟩ := Run.exists_of_exec (step plainEnvironment)
    (fun _ _ => True) (Config.new {} : Config Empty)
    (fun c => c.state.buffer = [.buffer [6, 7, 8]] ∧ (c.trace)[12]? = some (.emitted .end_) ∧
      ((moves false (c.trace.take 12)).all fun move => !move.isPutBack) = true ∧
      Tape.taken (moves false (c.trace.take 12)) ≠ Tape.appended (moves false (c.trace.take 12)))
    [.push (.buffer [1, 2, 3, 4, 5]) "", .resume, .read (some 5),
      .read (some 3), .ret, .resume,  -- inside `_read`
      .ret, .resume, .ret, .resume, .push (.buffer [6, 7, 8]) "", .resume,
      .push .null "", .ret, .resume, .resume, .read none, .tick, .tick] (by decide)
  refine ⟨c, run, buffer, fun final => differ ?_⟩
  have complete := (final 12 emitted).complete.taken_append (by simpa using none)
  rwa [append_nil] at complete

end IoJs.Stream.Readable
