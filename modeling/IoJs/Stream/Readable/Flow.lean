import IoJs.Stream.Readable.Refinement

/-!
# A flowing stream does not stall

A flowing stream reads one chunk at a time: `howMuchToRead` gives the length of the first
chunk in `state.buffer`. `push()` ignores empty chunks, but not a chunk of which the decoder
makes an empty text because it only has a part of a character; that text is stored, and a
`read()` that finds it in front takes nothing although there is data behind it
(`stalls_on_split_character`).
-/

namespace IoJs.Stream.Readable

open IoJs.Library List

variable {Obj : Type}
variable {s : ReadableState Obj} {c c' : Config Obj} {chunk : Chunk Obj} {env : Environment Obj}
  {a : Action Obj} {nOrig : Option Int} {n : Int}

/-- Does `push()` store a chunk that came out of the decoder empty? -/
def storesEmpty (env : Environment Obj) (c : Config Obj) (chunk : Chunk Obj)
    (encoding : String) : Bool :=
  !c.state.objectMode && !c.state.ended && !c.bypasses &&
    decide (0 < (pushedAs env c.state chunk encoding).1.size) &&
    decide ((pushedChunk env c.state chunk encoding).size = 0)

/-- No empty text is stored, and `_read` does not unshift. -/
def Steady (env : Environment Obj) (c : Config Obj) (a : Action Obj) : Prop :=
  Proper c a ∧ match a with
    | .push chunk encoding => storesEmpty env c chunk encoding = false
    | .unshift _ => c.inImplementation = false
    | _ => True

instance [DecidableEq Obj] (env : Environment Obj) (c : Config Obj) (a : Action Obj) :
    Decidable (Steady env c a) :=
  match a with
  | .push _ _ => inferInstanceAs (Decidable (_ ∧ _ = _))
  | .unshift _ => inferInstanceAs (Decidable (_ ∧ _ = _))
  | .read _ | .setEncoding _ | .pause | .resumeStream | .onData | .onReadable | .ret | .tick
  | .resume => inferInstanceAs (Decidable (_ ∧ True))

/-! ## No chunk is empty -/

/-- Outside object mode the chunks in `buffer` are not empty. -/
def Full (s : ReadableState Obj) : Prop := s.objectMode = false → ∀ chunk ∈ s.buffer, 0 < chunk.size

theorem Full.congr {s' : ReadableState Obj} (full : Full s)
    (mode : s'.objectMode = s.objectMode) (buffer : s'.buffer = s.buffer) : Full s' := by
  intro plain
  rw [buffer]
  exact full (mode.symm.trans plain)

theorem Full.idle {kind : Frame Obj → Bool} (full : Full c.state)
    (idle : Idle kind c c') : Full c'.state :=
  full.congr idle.objectMode (congrArg Store.buffer idle.store)

theorem Full.base {b : Config Obj} (full : Full c.state) (base : Base c b) : Full b.state :=
  full.congr base.objectMode base.buffer

theorem howMuchToRead_none (sound : Sound s) (full : Full s)
    (holds : s.length ≠ 0) : 0 < howMuchToRead none s := by
  have length := sound.length
  cases mode : s.objectMode with
  | true => simp [howMuchToRead, holds, mode]
  | false =>
    simp only [howMuchToRead, holds, mode, decide_false, Bool.false_and, Bool.false_eq_true,
      if_false]
    split
    · rename_i first rest _ list
      have here := full mode first (list ▸ mem_cons_self)
      omega
    · omega

theorem Own.full (own : Own c c') (full : Full c.state) : Full c'.state := by
  cases own with
  | idle idle => exact full.idle idle
  | takes k chunk before taken =>
    intro mode
    obtain ⟨left, left_, store⟩ := taken.store
    rw [show c'.state.buffer = left from congrArg Store.buffer store]
    exact left_.full (full.idle before (taken.objectMode.symm.trans mode))
  | calls nOrig before open_ same =>
    rw [same]
    exact (full.idle before).congr rfl rfl
  | finishes alone ended open_ none same =>
    rw [same, endReadableNow_eq open_ none]
    exact full.congr rfl rfl

theorem Fills.full {front : Bool} {given : Chunk Obj}
    (filled : Fills c front given chunk c') (full : Full c.state)
    (fresh : c.state.objectMode = false → c.state.admits front = true → c.bypasses = false →
      0 < given.size → 0 < chunk.size) : Full c'.state := by
  cases filled with
  | idle idle => exact full.idle idle
  | stores holds waits stored =>
    intro mode added member
    have mode : c.state.objectMode = false := stored.objectMode.symm.trans mode
    have given : 0 < given.size := by simpa [holdsData, mode] using holds
    rw [stored.buffer] at member
    have either : added = chunk ∨ added ∈ c.state.buffer := by
      cases front with
      | true => simpa using member
      | false => simpa [or_comm] using member
    rcases either with rfl | old
    · exact fresh mode stored.admitted waits given
    · exact full mode added old
  | passes passed => exact full.congr passed.objectMode passed.buffer
  | ends rest ended =>
    intro mode added member
    have mode : c.state.objectMode = false := ended.objectMode.symm.trans mode
    rw [show c'.state.buffer = c.state.buffer ++ rest from congrArg Store.buffer ended.store]
      at member
    rcases mem_append.mp member with old | new
    · exact full mode added old
    have some_ := (ended.fit added new).2
    rw [mode] at some_
    rw [← added.elements_length]
    exact length_pos_of_ne_nil some_

theorem Method.full (method : Method env c a c') (steady : Steady env c a) (full : Full c.state) :
    Full c'.state := by
  cases method with
  | idle idle => exact full.idle idle
  | pushes filled =>
    refine filled.full full fun mode admitted waits given => ?_
    have open_ : c.state.ended = false := by simpa [ReadableState.admits] using admitted
    have notEmpty := steady.2
    simp only [storesEmpty, mode, open_, waits, given, Bool.not_false, Bool.and_true,
      Bool.true_and, decide_true, decide_eq_false_iff_not] at notEmpty
    omega
  | unshifts filled => exact filled.full full fun _ _ _ given => given
  | encodes free => exact full.congr rfl rfl

/-! ## What `read()` found before `_read` -/

/-- A `read()` that found nothing and called `_read`, which has not pushed: there is still
nothing. -/
def Stale (c : Config Obj) : Prop :=
  ∀ n, .read none n ∈ c.stack → c.state.reading = true → n ≤ 0 → c.state.length = 0

theorem Stale.of_outer (outer : ∀ frame ∈ c.stack, frame.outer = true) : Stale c := by
  intro n member
  cases outer _ member

theorem Change.stale (change : Change c c') (sound : Sound c.state)
    (full : Full c.state) (outer : ∀ frame ∈ c.stack, frame.outer = true) : Stale c' := by
  rcases change.outer outer with outer' | ⟨d, nOrig, idle, below, same⟩
  · exact .of_outer outer'
  intro n member _ nothing
  by_contra holds
  rw [same] at member holds
  have called : nOrig = none ∧ n = howMuchToRead nOrig d.state := by
    rcases mem_cons.mp member with first | member
    · cases first
    rcases mem_cons.mp member with first | old
    · cases first
      exact ⟨rfl, rfl⟩
    · cases below _ old
  have some_ := howMuchToRead_none (sound.of_store idle.store) (full.idle idle) holds
  rw [called.2, called.1] at nothing
  omega

theorem Method.stale
    (method : Method env c a c') (steady : Steady env c a) (inside : c.inImplementation = true)
    (sync : c.state.sync = true) (reading : c'.state.reading = true) :
    c.state.reading = true ∧ c'.state.length = c.state.length := by
  cases method with
  | idle idle => exact ⟨idle.reading reading, idle.length⟩
  | pushes filled =>
    cases filled with
    | idle idle => exact ⟨idle.reading reading, idle.length⟩
    | stores holds waits stored => simp [stored.reading rfl] at reading
    | passes passed => simp [passed.async] at sync
    | ends => grind
  | unshifts => simp [steady.2] at inside
  | encodes free => exact ⟨reading, rfl⟩

theorem Stepped.stale
    (stepped : Stepped env c a c') (steady : Steady env c a) (inv : Inv c) (full : Full c.state)
    (stale : Stale c) : Stale c' := by
  obtain ⟨b, base, change⟩ := stepped.change
  cases inv.phase with
  | outside outer =>
    exact change.stale (base.sound inv.sound) (full.base base) fun frame member =>
      outer frame (base.stack.subset member)
  | inside above rest nOrig n stack passive outer sync =>
    have inside : c.inImplementation = true := by simp [Config.inImplementation, stack]
    have kept (frames : List (Frame Obj)) (new : ∀ frame ∈ frames, frame.passive = true)
        (old : List (Frame Obj)) (m : Int) (member : .read none m ∈ frames ++ old) :
        .read none m ∈ old := by
      rcases mem_append.mp member with added | old
      · cases new _ added
      · exact old
    cases stepped with
    | method turn method =>
      obtain ⟨-, -, -, frames, same, new⟩ := method.inside sync
      intro m member reading nothing
      obtain ⟨before, length⟩ := method.stale steady inside sync reading
      rw [same] at member
      exact length.trans (stale m (kept frames new _ m member) before nothing)
    | read =>
      have outside : c.inImplementation = false := steady.1
      simp [inside] at outside
    | ret code rest' top | returns chunk rest' top =>
      intro m member
      exact stale m (top ▸ mem_cons_of_mem _ member)
    | resume frame rest' top continues own idles =>
      have here : frame.passive = true := by
        rw [stack] at top
        cases above with
        | nil =>
          cases top
          cases continues
        | cons =>
          cases top
          exact passive _ mem_cons_self
      have idle := idles here
      obtain ⟨frames, same, new⟩ := idle.stack
      intro m member reading nothing
      rw [same] at member
      have old := kept frames new _ m member
      exact idle.length.trans
        (stale m (top ▸ mem_cons_of_mem _ old) (idle.reading reading) nothing)
    | readAfter nOrig' n' rest' top own =>
      rw [stack] at top
      cases above with
      | nil => cases top
      | cons =>
        cases top
        cases passive _ mem_cons_self
    | tick tick rest' idle => simp [stack] at idle
  | returning rest nOrig n stack outer =>
    cases stepped with
    | method turn | read turn => simp [Config.userTurn, stack] at turn
    | ret code rest' top => simp [stack] at top
    | resume frame rest' top continues =>
      rw [stack] at top
      cases top
      cases continues
    | returns chunk rest' top => simp [stack] at top
    | readAfter nOrig' n' rest' top own =>
      rw [stack] at top
      cases top
      exact Change.stale (.own own) (inv.sound.congr rfl rfl rfl rfl) (full.congr rfl rfl) outer
    | tick tick rest' idle => simp [stack] at idle

/-! ## The loop of `flow` -/

/-- A `read()` without argument, or one that has taken a chunk. -/
def Frame.reads : Frame Obj → Bool
  | .read none _ => true
  | .readReturn (some _) => true
  | _ => false

/-- What is called by `flow` is `read()`. -/
def Linked : List (Frame Obj) → Prop
  | [] => True
  | frame :: rest => (rest.head? = some .flow → frame.reads = true) ∧ Linked rest

/-- `flow` goes on after `read()` where there is data. -/
def Stops (c : Config Obj) : Prop :=
  c.stack.head? = some .flow → c.result = none → c.state.length = 0 ∨ c.flows = false

/-- `flow` calls nothing, and does not go on next. -/
structure Free (c : Config Obj) : Prop where
  linked : Linked c.stack
  notFlow : c.stack.head? ≠ some .flow

/-- The loop of `flow` is as it should be. -/
structure Settled (c : Config Obj) : Prop where
  linked : Linked c.stack
  stops : Stops c

section

variable (free : Free c)
include free

theorem Free.settled : Settled c := ⟨free.linked, fun flow => absurd flow free.notFlow⟩

theorem Free.append (frames : List (Frame Obj))
    (others : ∀ frame ∈ frames, frame ≠ .flow) (stack : c'.stack = frames ++ c.stack) :
    Free c' := by
  suffices Linked (frames ++ c.stack) ∧ (frames ++ c.stack).head? ≠ some .flow from
    ⟨stack ▸ this.1, stack ▸ this.2⟩
  clear stack
  induction frames with
  | nil => exact ⟨free.linked, free.notFlow⟩
  | cons frame frames ih =>
    obtain ⟨linked, notFlow⟩ := ih fun f member => others f (mem_cons_of_mem _ member)
    refine ⟨⟨fun flow => absurd flow notFlow, linked⟩, ?_⟩
    simpa using others frame mem_cons_self

theorem Free.push {frame : Frame Obj} (other : frame ≠ .flow) : Free (c.push frame) :=
  free.append [frame] (by simpa using other) rfl

theorem Free.of_stack (stack : c'.stack = c.stack) : Free c' := free.append [] (by simp) stack

theorem Free.calm {sync : Bool} (stack : ∃ frames, c'.stack = frames ++ c.stack ∧
    ∀ frame ∈ frames, frame.calm sync = true) : Free c' := by
  obtain ⟨frames, same, all⟩ := stack
  refine free.append frames (fun frame member => ?_) same
  rintro rfl
  cases all _ member

end

theorem Method.free (method : Method env c a c') (free : Free c) : Free c' := by
  have fills {front : Bool} {given chunk : Chunk Obj} (filled : Fills c front given chunk c') :
      Free c' := by
    cases filled with
    | idle idle => exact free.calm idle.stack
    | stores holds waits stored => exact free.calm stored.stack
    | passes passed =>
      exact free.append [.user (.listeners (.data chunk)), .addChunkRead] (by simp) passed.stack
    | ends rest ended => exact free.calm ended.stack
  cases method with
  | idle idle => exact free.calm idle.stack
  | pushes filled => exact fills filled
  | unshifts filled => exact fills filled
  | encodes => exact free.of_stack rfl

theorem Reads.free (reads : Reads c nOrig c') (free : Free c) : Free c' := by
  cases reads with
  | @zero d zero alike =>
    have pushed : Free (d.push (.readReturn none)) := (free.of_stack alike.stack).push (by simp)
    exact pushed.calm (Idle.emitReadable _).stack
  | null alike => exact free.of_stack alike.stack
  | takes chunk alike taken =>
    refine free.append [.user (.listeners (.data chunk)), .readReturn (some chunk)] (by simp) ?_
    rw [taken.stack, alike.stack]
    rfl
  | calls alike =>
    refine free.append [.user .implementation, .read nOrig (howMuchToRead nOrig c.state)]
      (by simp) ?_
    simp [callRead, alike.stack]

section Loop

variable {c : Config Obj} (sound : Sound c.state) (full : Full c.state) (free : Free c)
variable {c' : Config Obj}
include sound full free

theorem Reads.settled (reads : Reads (c.push .flow) none c') : Settled c' := by
  have below : Linked (Frame.flow :: c.stack) := ⟨fun flow => absurd flow free.notFlow, free.linked⟩
  cases reads with
  | zero zero => cases zero
  | null alike nothing =>
    refine ⟨?_, fun _ _ => .inl ?_⟩
    · exact alike.stack.symm ▸ below
    have none : c.state.length = 0 := by
      by_contra holds
      have some_ : 0 < howMuchToRead none (c.push .flow).state :=
        howMuchToRead_none sound full holds
      rcases nothing with nothing | nothing
      · omega
      · exact holds nothing
    exact alike.length.trans none
  | takes chunk alike taken =>
    have stack : c'.stack = .user (.listeners (.data chunk)) :: .readReturn (some chunk) ::
        .flow :: c.stack := by
      simp [taken.stack, alike.stack]
    refine ⟨?_, fun flow => ?_⟩
    · rw [stack]
      exact ⟨by simp, fun _ => rfl, below⟩
    · simp [stack] at flow
  | @calls d alike open_ =>
    have stack : (callRead d none (howMuchToRead none (c.push .flow).state)).stack =
        .user .implementation :: .read none (howMuchToRead none (c.push .flow).state) ::
        .flow :: c.stack := by simp [callRead, alike.stack]
    refine ⟨?_, fun flow => ?_⟩
    · rw [stack]
      exact ⟨by simp, fun _ => rfl, below⟩
    · cases flow

theorem flow_settled : Settled (flow c) := by
  simp only [flow]
  split
  · exact (read_spec (c := c.push .flow) sound none).settled sound full free
  · exact free.settled

omit full in
theorem read_free (nOrig : Option Int) : Free (read c nOrig) := (read_spec sound nOrig).free free

omit full in
theorem maybeReadMoreLoop_free : Free (maybeReadMoreLoop c) := by
  simp only [maybeReadMoreLoop]
  split
  · exact read_free (c := c.push _) sound (free.push (by simp)) (some 0)
  · exact free.of_stack rfl

omit sound full in
theorem resumeEmit_free : Free (resumeEmit c) :=
  free.append [.user (.listeners .resume), .resumeFlow] (by simp) rfl

theorem resume_settled {frame : Frame Obj} (continues : frame.continues = true)
    (resumed : resume c frame = some c') : Settled c' := by
  cases frame with
  | user code => cases resumed
  | read => cases continues
  | readReturn ret | addChunkReturn =>
    cases resumed
    exact Free.settled (free.of_stack rfl)
  | flow =>
    cases resumed
    simp only [flowAfter]
    split
    · exact flow_settled sound full free
    · exact free.settled
  | emitReadable =>
    cases resumed
    exact flow_settled sound full free
  | addChunkRead =>
    cases resumed
    exact (read_free (c := c.push _) sound (free.push (by simp)) (some 0)).settled
  | addChunkMore =>
    cases resumed
    have idle : Idle (Frame.calm true) c (addChunkReturn (maybeReadMore c)) :=
      (Idle.maybeReadMore c).trans (.addChunkReturn _)
    exact (free.calm idle.stack).settled
  | maybeReadMore len =>
    cases resumed
    simp only [maybeReadMoreAfter]
    split
    · exact Free.settled (free.of_stack rfl)
    · exact (maybeReadMoreLoop_free sound free).settled
  | resumeEmit =>
    cases resumed
    exact (resumeEmit_free free).settled
  | resumeFlow =>
    cases resumed
    exact flow_settled (c := c.push .resumeRead) sound full (free.push (by simp))
  | resumeRead =>
    cases resumed
    simp only [resumeRead]
    split
    · exact (read_free sound free (some 0)).settled
    · exact free.settled

omit full in
theorem runTick_free (tick : Tick) : Free (runTick c tick) := by
  cases tick with
  | emitReadable => exact free.append [.user (.listeners .readable), .emitReadable] (by simp) rfl
  | maybeReadMore => exact maybeReadMoreLoop_free sound free
  | resume =>
    simp only [runTick, resumeNow]
    split
    · exact resumeEmit_free free
    · exact read_free (c := c.push _) sound (free.push (by simp)) (some 0)
  | endReadable =>
    simp only [runTick, endReadableNow]
    split
    · exact free.append [.user (.listeners .end_)] (by simp) rfl
    · exact free
  | readZero => exact read_free sound free (some 0)

end Loop

theorem readAfter_settled (sound : Sound c.state) (full : Full c.state)
    (linked : Linked c.stack) (bounded : Bounded c.state n)
    (called : c.stack.head? = some .flow → nOrig = none)
    (stale : nOrig = none → c.state.reading = true → n ≤ 0 → c.state.length = 0) :
    Settled (readAfter c nOrig n) := by
  obtain ⟨d, m, amount, alike, taken⟩ := readAfter_spec sound nOrig bounded
  have stack : d.stack = c.stack := alike.stack
  rcases taken with ⟨-, -, chunk, taken⟩ | ⟨nothing, same⟩
  · have stack' := taken.stack
    rw [stack] at stack'
    refine ⟨?_, fun flow => ?_⟩
    · rw [stack']
      exact ⟨by simp, fun _ => rfl, linked⟩
    · simp [stack'] at flow
  rw [same]
  refine ⟨stack.symm ▸ linked, fun flow _ => .inl ?_⟩
  have none := called (stack ▸ flow)
  have zero : c.state.length = 0 := by
    by_contra holds
    have nothing : m ≤ 0 := nothing.resolve_right holds
    cases reading : c.state.reading with
    | true =>
      rw [reading, if_pos rfl] at amount
      exact holds (stale none reading (amount ▸ nothing))
    | false =>
      rw [reading, if_neg Bool.false_ne_true, none] at amount
      have some_ := howMuchToRead_none sound full holds
      omega
  exact alike.length.trans zero

/-! ## Whole runs -/

/-- What holds throughout a steady run. -/
structure FlowInv (c : Config Obj) : Prop where
  inv : Inv c
  full : Full c.state
  stale : Stale c
  settled : Settled c

namespace FlowInv

variable {env : Environment Obj} {c c' : Config Obj} {a : Action Obj}

section

variable (inv : FlowInv c)
include inv

theorem free_of_userTurn (turn : c.userTurn = true) : Free c := by
  refine ⟨inv.settled.linked, fun flow => ?_⟩
  cases stack : c.stack with
  | nil => simp [stack] at flow
  | cons =>
    rw [stack] at flow
    cases flow
    simp [Config.userTurn, stack] at turn

theorem free_of_pop {frame : Frame Obj} {rest : List (Frame Obj)}
    (top : c.stack = frame :: rest) (other : frame.reads = false) :
    Free { c with stack := rest } := by
  have linked := inv.settled.linked
  rw [top] at linked
  refine ⟨linked.2, fun flow => ?_⟩
  simp [linked.1 flow] at other

/-- A steady step leaves the loop of `flow` as it should be. -/
theorem settled_step (steady : Steady env c a)
    (step_ : Readable.step env c a = some c') : Settled c' := by
  have stepped := inv.inv.stepped steady.1 step_
  cases stepped with
  | method turn method => exact (method.free (inv.free_of_userTurn turn)).settled
  | @read nOrig c' turn own =>
    rw [eq_of_userTurn step_]
    exact (read_free inv.inv.sound (inv.free_of_userTurn turn) nOrig).settled
  | ret code rest top => exact (inv.free_of_pop top rfl).settled
  | resume frame rest top continues =>
    have other : frame.reads = false := by
      cases frame with
      | read => cases continues
      | readReturn ret => cases ret <;> first | rfl | cases continues
      | _ => rfl
    simp only [Readable.step, top] at step_
    exact resume_settled (c := { c with stack := rest }) inv.inv.sound inv.full
      (inv.free_of_pop top other) continues step_
  | returns chunk rest top =>
    have linked := inv.settled.linked
    rw [top] at linked
    refine ⟨linked.2, fun _ ret => ?_⟩
    cases ret
  | readAfter nOrig n rest top own =>
    have linked := inv.settled.linked
    rw [top] at linked
    simp only [Readable.step, top, Readable.resume, Option.some.injEq] at step_
    rw [← step_]
    refine readAfter_settled (c := { c with stack := rest }) inv.inv.sound inv.full linked.2
      (inv.inv.bounded _ _ _ top) (fun flow => ?_) fun none => ?_
    · have reads := linked.1 flow
      cases nOrig with
      | none => rfl
      | some k => cases reads
    subst none
    exact inv.stale n (top ▸ mem_cons_self)
  | tick tick rest idle queued own =>
    simp only [Readable.step, idle, queued, Option.some.injEq] at step_
    rw [← step_]
    have free : Free { c with stack := [], ticks := rest } := ⟨trivial, by simp⟩
    exact (runTick_free (c := { c with stack := [], ticks := rest }) inv.inv.sound
      free tick).settled

/-- A steady step stores no empty chunk. -/
theorem full_step (steady : Steady env c a)
    (step_ : Readable.step env c a = some c') : Full c'.state := by
  have stepped := inv.inv.stepped steady.1 step_
  cases stepped with
  | method turn method => exact method.full steady inv.full
  | read turn own | resume frame rest top continues own | tick tick rest idle queued own =>
    exact own.full inv.full
  | ret => exact inv.full
  | returns => exact inv.full
  | readAfter nOrig n rest top own => exact own.full (inv.full.congr rfl rfl)

theorem step (steady : Steady env c a) (step_ : Readable.step env c a = some c') : FlowInv c' where
  inv := inv.inv.step steady.1 step_
  full := inv.full_step steady step_
  stale := (inv.inv.stepped steady.1 step_).stale steady inv.inv inv.full inv.stale
  settled := inv.settled_step steady step_

end

theorem of_run {options : Options}
    (run : Run (Readable.step env) (Steady env) (Config.new options) c) : FlowInv c := by
  refine run.invariant FlowInv ⟨.new options, ?_, ?_, ?_⟩
    fun inv steady stepped => inv.step steady stepped
  · intro _ chunk member
    cases member
  · intro n member
    cases member
  · exact ⟨trivial, nofun⟩

end FlowInv

/-- `read()` emits some elements, at least one, and is going to return them. -/
def DeliversSome (c c' : Config Obj) (below : List (Frame Obj)) : Prop :=
  ∃ k : Nat, 0 < k ∧ (k : Int) ≤ c.state.length ∧ Delivers c c' k below

theorem Takes.deliversSome {d : Config Obj} {k : Nat}
    (taken : Takes d c' k chunk) (alike : Alike c d) : DeliversSome c c' c.stack :=
  ⟨k, taken.positive, alike.length ▸ taken.within, taken.delivers alike⟩

theorem Reads.deliversSome (reads : Reads c none c') (sound : Sound c.state)
    (full : Full c.state) (holds : c.state.length ≠ 0) :
    DeliversSome c c' c.stack ∨
      ∃ n, 0 < n ∧ c'.stack = .user .implementation :: .read none n :: c.stack := by
  have some_ := howMuchToRead_none sound full holds
  cases reads with
  | zero zero => cases zero
  | null => omega
  | takes chunk alike taken => exact .inl (taken.deliversSome alike)
  | calls alike => exact .inr ⟨_, some_, by simp [callRead, alike.stack]⟩

theorem readAfter_deliversSome (sound : Sound c.state) (full : Full c.state)
    (mode : c.state.objectMode = false) (positive : 0 < n) (bounded : Bounded c.state n) :
    DeliversSome c (readAfter c none n) c.stack := by
  have within : n ≤ c.state.length := by simpa [Bounded, mode] using bounded.2
  have some_ := howMuchToRead_none sound full (by omega)
  obtain ⟨d, m, amount, alike, taken⟩ := readAfter_spec sound none bounded
  rcases taken with ⟨-, -, chunk, taken⟩ | ⟨nothing, -⟩
  · obtain ⟨k, positive, within, delivers⟩ := taken.deliversSome alike
    exact ⟨k, positive, within, delivers.chunk, delivers.rest⟩
  · omega

/-- **A flowing stream does not stall.** In a steady run outside object mode `read()`
delivers something where there is something, at once or after `_read`; and where `flow` stops
there is nothing, or the stream does not flow. -/
theorem flowing_read_delivers {env : Environment Obj} {options : Options} {c : Config Obj}
    (mode : options.objectMode = false)
    (run : Run (step env) (Steady env) (Config.new options) c) :
    (c.flows = true → 0 < c.state.length → DeliversSome c (read c none) c.stack ∨
        ∃ n, 0 < n ∧ (read c none).stack = .user .implementation :: .read none n :: c.stack) ∧
    (∀ n rest c', 0 < n → c.stack = .read none n :: rest → step env c .resume = some c' →
      DeliversSome c c' rest) ∧
    (∀ rest, c.stack = .flow :: rest → c.result = none → c.state.length = 0 ∨ c.flows = false) := by
  obtain ⟨inv, full, stale, settled⟩ := FlowInv.of_run run
  have mode : c.state.objectMode = false :=
    (objectMode_of_run (run.mono fun steady => steady.1)).trans mode
  refine ⟨fun _ some_ => ?_, ?_, ?_⟩
  · exact (read_spec inv.sound none).deliversSome inv.sound full (by omega)
  · intro n rest c' positive top stepped
    simp only [step, top, resume, Option.some.injEq] at stepped
    rw [← stepped]
    obtain ⟨k, positive, within, delivers⟩ := readAfter_deliversSome (c := { c with stack := rest })
      inv.sound full mode positive (inv.bounded _ _ _ top)
    exact ⟨k, positive, within, delivers.chunk, delivers.rest⟩
  intro rest top
  exact settled.stops (by rw [top]; rfl)

/-- The text of bytes that are ASCII characters or characters of three bytes, in `'utf8'`. -/
def utf8Units : List UInt8 → JSString
  | [] => []
  | first :: rest =>
    if first < 0x80 then first.toUInt16 :: utf8Units rest
    else
      match rest with
      | second :: third :: rest =>
        (((first.toUInt16 &&& 0x0F) <<< 12) ||| ((second.toUInt16 &&& 0x3F) <<< 6) |||
          (third.toUInt16 &&& 0x3F)) :: utf8Units rest
      | _ => [0xFFFD]

/-- Streams of such text. -/
def utf8Environment : Environment Obj where
  newBuffer units _ := units.map fun unit => unit.toUInt8
  toString _ bytes := utf8Units bytes
  writeValue d _ := (d, [])

/-- A flowing stream with a character that came in one piece delivers it. -/
theorem flowing_read_delivers_of_whole_character :
    ∃ c : Config Empty, c.flows = true ∧ c.state.length = 1 ∧
      (DeliversSome c (read c none) c.stack ∨
        ∃ n, 0 < n ∧ (read c none).stack = .user .implementation :: .read none n :: c.stack) := by
  obtain ⟨c, run, flows, one⟩ := Run.exists_of_exec (step utf8Environment)
    (Steady utf8Environment) (Config.new { encoding := some "utf8" } : Config Empty)
    (fun c => c.flows = true ∧ c.state.length = 1)
    [.push (.buffer [0xE2, 0x82, 0xAC]) "", .resume, .resumeStream] (by decide)
  exact ⟨c, flows, one, (flowing_read_delivers rfl run).1 flows (by omega)⟩

/-- **`read()` returns null on a flowing stream that holds a character**: the character came
in two pieces, and the empty text of the first is in front of it. -/
theorem stalls_on_split_character : ∃ c : Config Empty,
    Run (step utf8Environment) Proper (Config.new { encoding := some "utf8" }) c ∧
      c.flows = true ∧ c.state.objectMode = false ∧ c.state.length = 1 ∧
      (exec (step utf8Environment) Proper c [.read none, .ret, .resume]).any (fun c' =>
        decide (c'.trace = c.trace ++ [.result none] ∧ c'.stack = c.stack ∧
          c'.flows = true ∧ c'.state.length = 1)) = true :=
  Run.exists_of_exec _ _ _ _
    [.push (.buffer [0xE2]) "", .resume, .push (.buffer [0x82, 0xAC]) "", .resume, .resumeStream]
    (by decide)

end IoJs.Stream.Readable
