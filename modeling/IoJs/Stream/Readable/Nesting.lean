import IoJs.Stream.Readable.Steps

/-!
# Calls inside `_read`

`read()` computes `n` before it calls `_read`, and unless `_read` pushes it takes `n`
elements afterwards. That is right as long as nothing is taken in between.
-/

namespace IoJs.Stream.Readable

open IoJs.Library List

variable {Obj : Type} {c c' : Config Obj}

/-- A call in progress that does not call `_read`. -/
def Frame.outer : Frame Obj → Bool
  | .user .implementation => false
  | .read _ _ => false
  | _ => true

theorem Frame.outer_of_quiet (frame : Frame Obj) (quiet : frame.quiet = true) :
    frame.outer = true := by
  cases frame with
  | user code => cases code with
      | implementation => cases quiet
      | listeners => rfl
  | read => cases quiet
  | _ => rfl

/-- Where a run is: outside `_read`, inside it, or at its return. -/
inductive Phase (c : Config Obj) : Prop where
  | outside (outer : ∀ frame ∈ c.stack, frame.outer = true)
  | inside (above rest : List (Frame Obj)) (nOrig : Option Int) (n : Int)
      (stack : c.stack = above ++ .user .implementation :: .read nOrig n :: rest)
      (passive : ∀ frame ∈ above, frame.passive = true)
      (outer : ∀ frame ∈ rest, frame.outer = true)
      (sync : c.state.sync = true) (bounded : Bounded c.state n)
  | returning (rest : List (Frame Obj)) (nOrig : Option Int) (n : Int)
      (stack : c.stack = .read nOrig n :: rest) (outer : ∀ frame ∈ rest, frame.outer = true)
      (bounded : Bounded c.state n)

/-- What holds throughout a run of proper steps. -/
structure Inv (c : Config Obj) : Prop where
  sound : Sound c.state
  consistent : Consistent c.state
  due : .endReadable ∈ c.ticks → c.state.ended = true
  phase : Phase c

theorem Bounded.mono {s s' : ReadableState Obj} {n : Int} (bounded : Bounded s n)
    (mode : s'.objectMode = s.objectMode) (length : s.length ≤ s'.length) : Bounded s' n := by
  refine ⟨bounded.1, ?_⟩
  have upper := bounded.2
  rw [mode]
  cases h : s.objectMode <;> simp only [h, if_true, Bool.false_eq_true, if_false] at upper ⊢ <;>
    omega

theorem outer_append {frames rest : List (Frame Obj)} (above : ∀ frame ∈ frames, frame.quiet = true)
    (outer : ∀ frame ∈ rest, frame.outer = true) :
    ∀ frame ∈ frames ++ rest, frame.outer = true := by
  intro frame member
  rcases mem_append.mp member with new | old
  · exact frame.outer_of_quiet (above frame new)
  · exact outer frame old

theorem Change.outer (change : Change c c') (outer : ∀ frame ∈ c.stack, frame.outer = true) :
    (∀ frame ∈ c'.stack, frame.outer = true) ∨
      ∃ d nOrig, Idle Frame.quiet c d ∧ (∀ frame ∈ d.stack, frame.outer = true) ∧
        c' = callRead d nOrig (howMuchToRead nOrig d.state) := by
  have added {d : Config Obj} (stack : ∃ frames, d.stack = frames ++ c.stack ∧
      ∀ frame ∈ frames, frame.quiet = true) : ∀ frame ∈ d.stack, frame.outer = true := by
    obtain ⟨frames, same, quiet⟩ := stack
    rw [same]
    exact outer_append quiet outer
  have calm {d : Config Obj} (stack : ∃ frames, d.stack = frames ++ c.stack ∧
      ∀ frame ∈ frames, frame.calm c.state.sync = true) :
        ∀ frame ∈ d.stack, frame.outer = true := by
    obtain ⟨frames, same, all⟩ := stack
    exact added ⟨frames, same, fun frame member => frame.quiet_of_calm _ (all frame member)⟩
  cases change with
  | own own =>
    cases own with
    | idle idle => exact .inl (added idle.stack)
    | takes k chunk before taken =>
      refine .inl ?_
      rw [taken.stack]
      simpa [Frame.outer] using added before.stack
    | calls nOrig before open_ same => exact .inr ⟨_, nOrig, before, added before.stack, same⟩
    | finishes alone ended open_ none same =>
      rw [same, endReadableNow_eq open_ none]
      refine .inl ?_
      simpa [Frame.outer] using outer
  | fills front given chunk filled =>
    cases filled with
    | idle idle => exact .inl (calm idle.stack)
    | stores holds waits stored => exact .inl (calm stored.stack)
    | passes passed =>
      refine .inl ?_
      rw [passed.stack]
      simpa [Frame.outer] using outer
    | ends rest ended => exact .inl (calm ended.stack)
  | encodes encoding free same => exact .inl (same ▸ outer)

theorem Change.phase (change : Change c c') (sound : Sound c.state)
    (outer : ∀ frame ∈ c.stack, frame.outer = true) : Phase c' := by
  rcases change.outer outer with outer' | ⟨d, nOrig, idle, below, same⟩
  · exact .outside outer'
  rw [same]
  exact .inside [] _ nOrig _ rfl (by simp) below rfl
    (howMuchToRead_bounded (sound.of_store idle.store) nOrig)

/-- What a method that is called inside `_read`, `read()` apart, does to the calls in
progress: it adds only passive ones. -/
theorem Method.inside {env : Environment Obj} {a : Action Obj}
    (method : Method env c a c') (sync : c.state.sync = true) :
    c'.state.sync = true ∧ c'.state.objectMode = c.state.objectMode ∧
      c.state.length ≤ c'.state.length ∧
      ∃ frames, c'.stack = frames ++ c.stack ∧ ∀ frame ∈ frames, frame.passive = true := by
  have passive {d : Config Obj} (stack : ∃ frames, d.stack = frames ++ c.stack ∧
      ∀ frame ∈ frames, frame.calm c.state.sync = true) :
      ∃ frames, d.stack = frames ++ c.stack ∧ ∀ frame ∈ frames, frame.passive = true := by
    obtain ⟨frames, same, all⟩ := stack
    rw [sync] at all
    exact ⟨frames, same, fun frame member => frame.passive_of_calm (all frame member)⟩
  have idles {d : Config Obj} (idle : Idle (Frame.calm c.state.sync) c d) :
      d.state.sync = true ∧ d.state.objectMode = c.state.objectMode ∧
        c.state.length ≤ d.state.length ∧
        ∃ frames, d.stack = frames ++ c.stack ∧ ∀ frame ∈ frames, frame.passive = true :=
    ⟨idle.sync.trans sync, idle.objectMode, idle.length.ge, passive idle.stack⟩
  have fills {front : Bool} {given chunk : Chunk Obj} {d : Config Obj}
      (filled : Fills c front given chunk d) :
      d.state.sync = true ∧ d.state.objectMode = c.state.objectMode ∧
        c.state.length ≤ d.state.length ∧
        ∃ frames, d.stack = frames ++ c.stack ∧ ∀ frame ∈ frames, frame.passive = true := by
    cases filled with
    | idle idle => exact idles idle
    | stores holds waits stored =>
      obtain ⟨decoder, -, store⟩ := stored.store
      refine ⟨(congrArg Store.sync store).trans sync, stored.objectMode, ?_, passive stored.stack⟩
      rw [stored.length]
      omega
    | passes passed =>
      -- not in sync mode
      rw [passed.async] at sync
      cases sync
    | ends rest ended =>
      refine ⟨(congrArg Store.sync ended.store).trans sync, ended.objectMode, ?_,
        passive ended.stack⟩
      rw [ended.length]
      omega
  cases method with
  | idle idle => exact idles idle
  | pushes filled => exact fills filled
  | unshifts filled => exact fills filled
  | encodes free => exact ⟨sync, rfl, le_refl _, [], rfl, by simp⟩

namespace Inv

variable {env : Environment Obj} {c c' : Config Obj} {a : Action Obj}

theorem new (options : Options) : Inv (Config.new options : Config Obj) := by
  refine ⟨⟨rfl, by simp [Config.new, ReadableState.new]⟩, ?_, by simp [Config.new],
    .outside (by simp [Config.new])⟩
  simp [Consistent, Config.new, ReadableState.new]

theorem bounded (inv : Inv c) (nOrig : Option Int) (n : Int) (rest : List (Frame Obj))
    (top : c.stack = .read nOrig n :: rest) : Bounded c.state n := by
  cases inv.phase with
  | outside outer => exact absurd (outer _ (top ▸ mem_cons_self)) (by simp [Frame.outer])
  | inside above rest' nOrig' n' stack passive =>
    rw [stack] at top
    cases above with
    | nil => cases top
    | cons =>
      cases top
      cases passive _ mem_cons_self
  | returning rest' nOrig' n' stack outer bounded =>
    rw [stack] at top
    cases top
    exact bounded

theorem stepped (inv : Inv c) (proper : Proper c a) (step_ : step env c a = some c') :
    Stepped env c a c' :=
  stepped_of_step inv.sound inv.consistent inv.bounded inv.due proper step_

/-- A proper step inside `_read` stays there, or comes to its return. -/
theorem inside_step (proper : Proper c a) (stepped : Stepped env c a c')
    {above rest : List (Frame Obj)} {nOrig : Option Int} {n : Int}
    (stack : c.stack = above ++ .user .implementation :: .read nOrig n :: rest)
    (passive : ∀ frame ∈ above, frame.passive = true)
    (outer : ∀ frame ∈ rest, frame.outer = true)
    (sync : c.state.sync = true) (bounded : Bounded c.state n) : Phase c' := by
  cases stepped with
  | method turn method =>
    obtain ⟨sync', mode, length, frames, same, new⟩ := method.inside sync
    refine .inside (frames ++ above) rest nOrig n ?_ ?_ outer sync' (bounded.mono mode length)
    · rw [same, stack, append_assoc]
    intro frame member
    exact (mem_append.mp member).elim (new frame) (passive frame)
  | read => simp [Proper, Config.inImplementation, stack] at proper
  | ret code rest' top =>
    rw [stack] at top
    cases above with
    | nil =>
      cases top
      exact .returning rest nOrig n rfl outer bounded
    | cons frame above =>
      cases top
      exact .inside above rest nOrig n rfl
        (fun frame member => passive frame (mem_cons_of_mem _ member)) outer sync bounded
  | resume frame rest' top continues own idles =>
    rw [stack] at top
    cases above with
    | nil =>
      cases top
      cases continues
    | cons frame above =>
      cases top
      have idle := idles (passive _ mem_cons_self)
      obtain ⟨frames, same, new⟩ := idle.stack
      refine .inside (frames ++ above) rest nOrig n ?_ ?_ outer (idle.sync.trans sync)
        (bounded.mono idle.objectMode idle.length.ge)
      · exact same.trans (append_assoc _ _ _).symm
      intro frame member
      rcases mem_append.mp member with added | old
      · exact new frame added
      · exact passive frame (mem_cons_of_mem _ old)
  | returns chunk rest' top | readAfter nOrig' n' rest' top own =>
    rw [stack] at top
    cases above with
    | nil => cases top
    | cons =>
      cases top
      cases passive _ mem_cons_self
  | tick tick rest' idle => simp [stack] at idle

/-- One proper step keeps the invariant, in whichever phase it is taken. -/
theorem step (inv : Inv c) (proper : Proper c a) (step_ : Readable.step env c a = some c') :
    Inv c' := by
  have stepped := inv.stepped proper step_
  obtain ⟨b, base, change⟩ := stepped.change
  refine ⟨change.sound (base.sound inv.sound), change.consistent (base.consistent inv.consistent),
    change.due fun queued => base.ended.trans (inv.due (base.ticks _ queued)), ?_⟩
  cases inv.phase with
  | outside outer =>
    exact change.phase (base.sound inv.sound) fun frame member =>
      outer frame (base.stack.subset member)
  | inside above rest nOrig n stack passive outer sync bounded =>
    exact inside_step proper stepped stack passive outer sync bounded
  | returning rest nOrig n stack outer =>
    cases stepped with
    | method turn | read turn => simp [Config.userTurn, stack] at turn
    | ret code rest' top => simp [stack] at top
    | resume frame rest' top continues =>
      rw [stack] at top
      cases top
      cases continues
    | returns chunk rest' top => simp [stack] at top
    | readAfter nOrig' n' rest' top own =>
      rw [stack] at top
      cases top
      exact Change.phase (.own own) (inv.sound.congr rfl rfl rfl rfl) outer
    | tick tick rest' idle => simp [stack] at idle

end Inv

end IoJs.Stream.Readable
