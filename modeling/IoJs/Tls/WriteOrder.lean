import IoJs.Tls.WritePath
import Mathlib.Tactic.Common

/-!
# What the write path of `TLSWrap` keeps

Calls of OpenSSL move plaintext and add ciphertext, and leave the requests alone (`Forwarded`). What
has been queued is completed in order, since no loop of `InvokeQueued` starts while another one is
running: a request that was queued meanwhile has something in `clear_in_` or `enc_out_`, and only
the event loop takes ciphertext away (`Requests.behind`).
-/

namespace IoJs.Tls

open IoJs.Library List Option

variable {Request : Type} {around : Surroundings} {w w' w'' : TLSWrap Request}

/-- Something is left in `clear_in_` or `enc_out_`. -/
def TLSWrap.Holds (w : TLSWrap Request) : Prop := w.clearIn ≠ [] ∨ w.encOut ≠ []

theorem isEmptied_iff : w.isEmptied = true ↔ w.clearIn = [] ∧ w.encOut = [] := by
  simp [TLSWrap.isEmptied]

/-- The requests that wait, in their order -/
def TLSWrap.waiting (w : TLSWrap Request) : List Request :=
  w.taken.flatMap Taken.items ++ w.pendingWriteItems ++ w.writeItemQueue

/-! ## Calls of OpenSSL -/

/-- Plaintext may have been moved, and ciphertext added. -/
structure Forwarded (w w' : TLSWrap Request) : Prop where
  taken : w'.taken = w.taken
  pending : w'.pendingWriteItems = w.pendingWriteItems
  queue : w'.writeItemQueue = w.writeItemQueue
  queued : w'.queued = w.queued
  completed : w'.completed = w.completed
  writeSize : w'.writeSize = w.writeSize
  established : w.established = true → w'.established = true
  encOut : w.encOut <+: w'.encOut
  holds : w.Holds → w'.Holds

namespace Forwarded

theorem refl (w : TLSWrap Request) : Forwarded w w where
  taken := rfl
  pending := rfl
  queue := rfl
  queued := rfl
  completed := rfl
  writeSize := rfl
  established := id
  encOut := prefix_rfl
  holds := id

theorem trans (first : Forwarded w w') (second : Forwarded w' w'') : Forwarded w w'' where
  taken := second.taken.trans first.taken
  pending := second.pending.trans first.pending
  queue := second.queue.trans first.queue
  queued := second.queued.trans first.queued
  completed := second.completed.trans first.completed
  writeSize := second.writeSize.trans first.writeSize
  established := fun done => second.established (first.established done)
  encOut := first.encOut.trans second.encOut
  holds := fun something => second.holds (first.holds something)

theorem encOut_ne_nil (forwarded : Forwarded w w') (something : w.encOut ≠ []) :
    w'.encOut ≠ [] := by
  intro nothing
  have none_ := forwarded.encOut
  rw [nothing] at none_
  exact something (prefix_nil.mp none_)

theorem idle (forwarded : Forwarded w w') :
    Forwarded { w with writeSize := 0 } { w' with writeSize := 0 } :=
  { forwarded with writeSize := rfl }

end Forwarded

theorem forwarded_after (w : TLSWrap Request) (did : Written) : Forwarded w (w.after did) where
  taken := rfl
  pending := rfl
  queue := rfl
  queued := rfl
  completed := rfl
  writeSize := rfl
  established done := by
    show (w.established || did.handshakeDone) = true
    simp [done]
  encOut := prefix_append _ _
  holds something := by
    rcases something with left | sent
    · exact .inl left
    · exact .inr (append_ne_nil_of_left_ne_nil sent _)

theorem forwarded_enqueue (w : TLSWrap Request) (bufs : List (List UInt8)) :
    Forwarded w (w.enqueue bufs) where
  taken := rfl
  pending := rfl
  queue := rfl
  queued := rfl
  completed := rfl
  writeSize := rfl
  established := id
  encOut := prefix_rfl
  holds something := by
    rcases something with left | sent
    · exact .inl (append_ne_nil_of_left_ne_nil left _)
    · exact .inr sent

theorem forwarded_sslWrite (around : Surroundings) (w : TLSWrap Request) (data : List UInt8) :
    Forwarded w (sslWrite around w data).2 := by
  have did := forwarded_after w (around.sslWrite w.calls data.length)
  exact ⟨rfl, rfl, rfl, rfl, rfl, rfl, did.established, did.encOut, did.holds⟩

theorem sslWrite_clearIn (around : Surroundings) (w : TLSWrap Request) (data : List UInt8) :
    (sslWrite around w data).2.clearIn = w.clearIn := rfl

section

variable (allOrNothing : around.AllOrNothing)
include allOrNothing

theorem sslWrite_cases (w : TLSWrap Request) (data : List UInt8) :
    (sslWrite around w data).1 = -1 ∧ (sslWrite around w data).2.accepted = w.accepted ∨
      (sslWrite around w data).1 = data.length ∧
        (sslWrite around w data).2.accepted = w.accepted ++ data ∧
        (data ≠ [] → (sslWrite around w data).2.encOut ≠ []) := by
  rcases allOrNothing w.calls data.length with refused | ⟨all, records⟩
  · refine .inl ⟨refused, ?_⟩
    show w.accepted ++ data.take (around.sslWrite w.calls data.length).written.toNat = w.accepted
    simp [refused]
  refine .inr ⟨all, ?_, fun some_ => ?_⟩
  · show w.accepted ++ data.take (around.sslWrite w.calls data.length).written.toNat = _
    simp [all]
  · exact append_ne_nil_of_right_ne_nil _ (records (length_pos_iff.mpr some_))

theorem clearInLoop_spec (n : Nat) (written : Int) (w : TLSWrap Request) (nonneg : 0 ≤ written) :
    ∃ written' w', clearInLoop around n written w = some (written', w') ∧ Forwarded w w' ∧
      w'.accepted ++ w'.clearIn = w.accepted ++ w.clearIn ∧ (w'.clearIn = [] → 0 ≤ written') := by
  induction n generalizing written w with
  | zero => exact ⟨written, w, rfl, .refl w, rfl, fun _ => nonneg⟩
  | succ n ih =>
    rw [clearInLoop]
    by_cases more : 0 < w.clearIn.length
    · rw [if_pos more]
      have nonempty : w.clearIn ≠ [] := length_pos_iff.mp more
      have some_ : w.clearIn.take (around.buffered w.calls + 1) ≠ [] := by
        rw [Ne, take_eq_nil_iff, not_or]
        exact ⟨Nat.succ_ne_zero _, nonempty⟩
      generalize data_eq : w.clearIn.take (around.buffered w.calls + 1) = data at some_ ⊢
      have split : data ++ w.clearIn.drop data.length = w.clearIn := by
        have prefix_ : data <+: w.clearIn := data_eq ▸ take_prefix _ _
        exact prefix_iff_eq_append.mp prefix_
      have forwarded := forwarded_sslWrite around w data
      have same := sslWrite_clearIn around w data
      rcases sslWrite_cases allOrNothing w data with ⟨refused, accepted⟩ | ⟨all, accepted, sent⟩
      · refine ⟨-1, (sslWrite around w data).2, ?_, forwarded, ?_, fun nothing => ?_⟩
        · simp [refused]
        · rw [accepted, same]
        · exact absurd (same.symm.trans nothing) nonempty
      have accepts : (data.length : Int) ≠ -1 := by omega
      have dropped : Forwarded w
          { (sslWrite around w data).2 with clearIn := w.clearIn.drop data.length } :=
        ⟨rfl, rfl, rfl, rfl, rfl, rfl, forwarded.established, forwarded.encOut,
          fun _ => .inr (sent some_)⟩
      obtain ⟨written', w', looped, more', moved, last⟩ := ih data.length
        { (sslWrite around w data).2 with clearIn := w.clearIn.drop data.length } (by omega)
      refine ⟨written', w', ?_, dropped.trans more', ?_, last⟩
      · dsimp only
        rw [all, if_pos (.inr rfl), if_neg accepts, same]
        exact looped
      · grind
    rw [if_neg more]
    exact ⟨written, w, rfl, .refl w, rfl, fun _ => nonneg⟩

theorem clearIn_spec (w : TLSWrap Request) :
    ∃ all w', clearIn around w = some (all, w') ∧ Forwarded w w' ∧
      w'.accepted ++ w'.clearIn = w.accepted ++ w.clearIn ∧ (all = true → w'.clearIn = []) := by
  rw [clearIn]
  cases ended : w.helloEnded with
  | false => exact ⟨false, w, rfl, .refl w, rfl, nofun⟩
  | true =>
    obtain ⟨written, w', looped, forwarded, moved, last⟩ :=
      clearInLoop_spec allOrNothing w.clearIn.length 0 w (Int.le_refl 0)
    rw [if_neg (by simp), looped]
    dsimp only
    by_cases nothing : w'.clearIn.length = 0
    · have nothing' := length_eq_zero_iff.mp nothing
      rw [if_pos nothing, if_pos (last nothing')]
      exact ⟨true, w', rfl, forwarded, moved, fun _ => nothing'⟩
    rw [if_neg nothing]
    exact ⟨false, w', rfl, forwarded, moved, nofun⟩

theorem writeLoop_spec (bufs : List (List UInt8)) (w : TLSWrap Request) :
    ∃ rest w', writeLoop around w bufs = some (rest, w') ∧ Forwarded w w' ∧
      w'.clearIn = w.clearIn ∧ w'.accepted ++ rest.flatten = w.accepted ++ bufs.flatten ∧
      (bufs.flatten ≠ [] → rest.flatten ≠ [] ∨ w'.encOut ≠ []) := by
  induction bufs generalizing w with
  | nil => exact ⟨[], w, rfl, .refl w, rfl, rfl, fun some_ => absurd rfl some_⟩
  | cons buf bufs ih =>
    rw [writeLoop]
    have forwarded := forwarded_sslWrite around w buf
    rcases sslWrite_cases allOrNothing w buf with ⟨refused, accepted⟩ | ⟨all, accepted, sent⟩
    · refine ⟨buf :: bufs, (sslWrite around w buf).2, ?_, forwarded, rfl, ?_, .inl⟩
      · simp [refused]
      · rw [accepted]
    have accepts : (buf.length : Int) ≠ -1 := by omega
    obtain ⟨rest, w', looped, more, same, moved, left⟩ := ih (sslWrite around w buf).2
    refine ⟨rest, w', ?_, forwarded.trans more, same, ?_, fun some_ => ?_⟩
    · dsimp only
      rw [all, if_pos (.inr rfl), if_neg accepts]
      exact looped
    · simp [moved, accepted]
    by_cases empty : buf = []
    · rw [empty, flatten_cons, nil_append] at some_
      exact left some_
    · exact .inr (more.encOut_ne_nil (sent empty))

end

/-! ## Requests -/

/-- What holds of the requests -/
structure Requests (w : TLSWrap Request) : Prop where
  order : w.completed.map Completion.request ++ w.waiting = w.queued
  alone : w.taken.length ≤ 1
  items : ∀ t ∈ w.taken, t.items ≠ []
  takenClean : ∀ t ∈ w.taken, t.status = 0 → t.clean = true
  clean : ∀ c ∈ w.completed, c.status = 0 → c.clean = true
  established : w.pendingWriteItems ≠ [] → w.established = true
  /-- What was queued behind the requests that are being completed is not through yet. -/
  behind : w.taken ≠ [] → w.pendingWriteItems ++ w.writeItemQueue ≠ [] → w.Holds
  size : w.writeSize ≤ w.encOut.length

theorem requests_new : Requests (.new : TLSWrap Request) where
  order := rfl
  alone := Nat.zero_le 1
  items _ mem := absurd mem not_mem_nil
  takenClean _ mem := absurd mem not_mem_nil
  clean _ mem := absurd mem not_mem_nil
  established some_ := absurd rfl some_
  behind some_ := absurd rfl some_
  size := Nat.le_refl 0

namespace Requests

section

variable (requests : Requests w)
include requests

theorem forward (forwarded : Forwarded w w') : Requests w' where
  order := by
    rw [forwarded.completed, forwarded.queued, TLSWrap.waiting, forwarded.taken, forwarded.pending,
      forwarded.queue]
    exact requests.order
  alone := by
    rw [forwarded.taken]
    exact requests.alone
  items := by
    rw [forwarded.taken]
    exact requests.items
  takenClean := by
    rw [forwarded.taken]
    exact requests.takenClean
  clean := by
    rw [forwarded.completed]
    exact requests.clean
  established := by
    rw [forwarded.pending]
    exact fun some_ => forwarded.established (requests.established some_)
  behind := by
    rw [forwarded.taken, forwarded.pending, forwarded.queue]
    exact fun running some_ => forwarded.holds (requests.behind running some_)
  size := by
    rw [forwarded.writeSize]
    exact Nat.le_trans requests.size forwarded.encOut.length_le

theorem pushBack {request : Request} (holds : w'.Holds)
    (forwarded : Forwarded (w.pushBack request) w') : Requests w' where
  order := by
    rw [forwarded.completed, forwarded.queued, TLSWrap.waiting, forwarded.taken, forwarded.pending,
      forwarded.queue]
    show w.completed.map Completion.request ++
      (w.taken.flatMap Taken.items ++ w.pendingWriteItems ++ (w.writeItemQueue ++ [request])) =
        w.queued ++ [request]
    simp [← requests.order, TLSWrap.waiting]
  alone := by
    rw [forwarded.taken]
    exact requests.alone
  items := by
    rw [forwarded.taken]
    exact requests.items
  takenClean := by
    rw [forwarded.taken]
    exact requests.takenClean
  clean := by
    rw [forwarded.completed]
    exact requests.clean
  established := by
    rw [forwarded.pending]
    exact fun some_ => forwarded.established (requests.established some_)
  behind := fun _ _ => holds
  size := by
    rw [forwarded.writeSize]
    exact Nat.le_trans requests.size forwarded.encOut.length_le

theorem makePending (established : w.established = true) : Requests (makePending w) where
  order := by
    show w.completed.map Completion.request ++
      (w.taken.flatMap Taken.items ++ (w.pendingWriteItems ++ w.writeItemQueue) ++ []) = w.queued
    simp [← requests.order, TLSWrap.waiting]
  alone := requests.alone
  items := requests.items
  takenClean := requests.takenClean
  clean := requests.clean
  established := fun _ => established
  behind := fun running some_ => requests.behind running (by
    rw [← append_nil (w.pendingWriteItems ++ w.writeItemQueue)]
    exact some_)
  size := requests.size

theorem invokeQueued {status : Int} (clean : status = 0 → w.isEmptied = true)
    (alone : w.pendingWriteItems ≠ [] → w.taken = [])
    (behind : w.pendingWriteItems ≠ [] → w.writeItemQueue ≠ [] → w.Holds) :
    Requests (invokeQueued w status) := by
  rw [Tls.invokeQueued]
  by_cases nothing : w.pendingWriteItems = []
  · rw [if_pos nothing]
    exact requests
  rw [if_neg nothing]
  have none_ := alone nothing
  refine
    { order := ?_
      alone := ?_
      items := fun t mem => ?_
      takenClean := fun t mem ok => ?_
      clean := requests.clean
      established := fun some_ => absurd rfl some_
      behind := fun _ some_ => behind nothing some_
      size := requests.size }
  · rw [none_]
    show w.completed.map Completion.request ++
      (w.pendingWriteItems ++ [] ++ [] ++ w.writeItemQueue) = w.queued
    rw [← requests.order, TLSWrap.waiting, none_, append_nil, append_nil]
    rfl
  · simp [none_]
  · grind
  rw [none_] at mem
  obtain rfl := mem_singleton.mp mem
  exact clean ok

theorem done (running : w.taken ≠ []) : Requests (done w) := by
  obtain ⟨t, none_⟩ : ∃ t, w.taken = [t] :=
    length_eq_one_iff.mp (Nat.le_antisymm requests.alone (length_pos_iff.mpr running))
  obtain ⟨items, status, clean⟩ := t
  have some_ : items ≠ [] := requests.items _ (none_ ▸ mem_singleton_self _)
  have clean_ : status = 0 → clean = true := requests.takenClean _ (none_ ▸ mem_singleton_self _)
  have order := requests.order
  rw [TLSWrap.waiting, none_] at order
  cases items with
  | nil => exact absurd rfl some_
  | cons wi items =>
    have cleaned : ∀ c ∈ w.completed ++ [⟨wi, status, clean, w.isEmptied⟩],
        c.status = 0 → c.clean = true := by
      intro c mem ok
      rcases mem_append.mp mem with before | now
      · exact requests.clean c before ok
      obtain rfl := mem_singleton.mp now
      exact clean_ ok
    have behind : w.pendingWriteItems ++ w.writeItemQueue ≠ [] → w.Holds := requests.behind running
    rw [Tls.done, none_]
    dsimp only
    by_cases last : items = []
    · rw [if_pos last]
      refine
        { order := ?_
          alone := Nat.zero_le 1
          items := nofun
          takenClean := nofun
          clean := cleaned
          established := requests.established
          behind := fun more => absurd rfl more
          size := requests.size }
      rw [← order, last, map_append, append_assoc]
      rfl
    rw [if_neg last]
    refine
      { order := ?_
        alone := Nat.le_refl 1
        items := fun t mem => ?_
        takenClean := fun t mem => ?_
        clean := cleaned
        established := requests.established
        behind := fun _ => behind
        size := requests.size }
    · rw [← order, map_append, append_assoc]
      rfl
    · grind
    · grind

end

end Requests

/-! ## The functions -/

/-- The bytes stay where they are. -/
structure SamePlain (w w' : TLSWrap Request) : Prop where
  clearIn : w'.clearIn = w.clearIn
  accepted : w'.accepted = w.accepted

theorem samePlain_invokeQueued (w : TLSWrap Request) (status : Int) :
    SamePlain w (invokeQueued w status) := by
  rw [invokeQueued]
  split_ifs
  · exact ⟨rfl, rfl⟩
  · exact ⟨rfl, rfl⟩

theorem samePlain_done (w : TLSWrap Request) : SamePlain w (done w) := by
  rw [done]
  split
  · exact ⟨rfl, rfl⟩
  · exact ⟨rfl, rfl⟩

/-- The queue is split off once the first handshake is done. -/
def splitOff (w : TLSWrap Request) : TLSWrap Request :=
  if w.established ∧ w.writeItemQueue ≠ [] then makePending w else w

/-- `EncOut` behind its gates, once the queue has been split off -/
def encOutPending (around : Surroundings) (w : TLSWrap Request) : Option (TLSWrap Request) :=
  if w.encOut.length = 0 then
    if w.clearIn.length = 0 then some (invokeQueued w 0) else some w
  else
    if min (around.buffered w.calls + 1) w.encOut.length ≠ 0 then
      if around.doWrite w.calls ≠ 0 then
        some (invokeQueued
          { w with
            writeSize := min (around.buffered w.calls + 1) w.encOut.length, calls := w.calls + 1 }
          (around.doWrite w.calls))
      else
        some { w with
          writeSize := min (around.buffered w.calls + 1) w.encOut.length, calls := w.calls + 1 }
    else none

theorem encOut_eq (around : Surroundings) (w : TLSWrap Request) : encOut around w =
    if w.helloEnded = false ∨ w.writeSize ≠ 0 ∨ w.newSessionWait = true then some w
    else encOutPending around (splitOff w) := by
  rw [encOut]
  cases w.helloEnded with
  | false => rfl
  | true =>
    by_cases writing : w.writeSize ≠ 0
    · rw [if_neg (by simp), if_pos writing, if_pos (.inr (.inl writing))]
    cases waits : w.newSessionWait with
    | true => rw [if_neg (by simp), if_neg writing, if_pos rfl, if_pos (.inr (.inr rfl))]
    | false =>
      have closed : ¬(true = false ∨ w.writeSize ≠ 0 ∨ false = true) := by simp [writing]
      rw [if_neg (by simp), if_neg writing, if_neg (by simp), if_neg closed]
      rfl

theorem encOutPending_spec (noErrors : around.NoErrors) (requests : Requests w)
    (split : w.pendingWriteItems ≠ [] → w.writeItemQueue = []) :
    ∃ w', encOutPending around w = some w' ∧ Requests w' ∧ SamePlain w w' := by
  rw [encOutPending]
  by_cases sent : w.encOut.length = 0
  · rw [if_pos sent]
    by_cases taken : w.clearIn.length = 0
    · rw [if_pos taken]
      have nothing : w.clearIn = [] ∧ w.encOut = [] :=
        ⟨length_eq_zero_iff.mp taken, length_eq_zero_iff.mp sent⟩
      refine ⟨_, rfl, requests.invokeQueued (fun _ => isEmptied_iff.mpr nothing) (fun some_ => ?_)
        (fun some_ queue => absurd (split some_) queue), samePlain_invokeQueued w 0⟩
      -- a loop that is running has nothing behind it, since nothing is left
      by_contra running
      rcases requests.behind running (append_ne_nil_of_left_ne_nil some_ _) with left | left
      · exact left nothing.1
      · exact left nothing.2
    rw [if_neg taken]
    exact ⟨w, rfl, requests, rfl, rfl⟩
  have size : min (around.buffered w.calls + 1) w.encOut.length ≠ 0 := by omega
  rw [if_neg sent, if_pos size, if_neg (not_not.mpr (noErrors w.calls))]
  exact ⟨_, rfl, ⟨requests.order, requests.alone, requests.items, requests.takenClean,
    requests.clean, requests.established, requests.behind, Nat.min_le_right _ _⟩, rfl, rfl⟩

theorem samePlain_splitOff (w : TLSWrap Request) : SamePlain w (splitOff w) := by
  rw [splitOff]
  split_ifs
  · exact ⟨rfl, rfl⟩
  · exact ⟨rfl, rfl⟩

theorem Requests.splitOff (requests : Requests w) : Requests (splitOff w) := by
  rw [Tls.splitOff]
  split_ifs with splits
  · exact requests.makePending splits.1
  · exact requests

theorem splitOff_queue (requests : Requests w) (some_ : (splitOff w).pendingWriteItems ≠ []) :
    (splitOff w).writeItemQueue = [] := by
  rw [splitOff] at some_ ⊢
  split_ifs at some_ ⊢ with splits
  · rfl
  by_contra queue
  exact splits ⟨requests.established some_, queue⟩

theorem encOut_spec (noErrors : around.NoErrors) (requests : Requests w) :
    ∃ w', encOut around w = some w' ∧ Requests w' ∧ SamePlain w w' := by
  rw [encOut_eq]
  split_ifs with gate
  · exact ⟨w, rfl, requests, rfl, rfl⟩
  obtain ⟨w', out, requests', same⟩ :=
    encOutPending_spec noErrors requests.splitOff (splitOff_queue requests)
  have before := samePlain_splitOff w
  exact ⟨w', out, requests', same.clearIn.trans before.clearIn, same.accepted.trans before.accepted⟩

/-- With nothing left to send, all pending writes are finished. -/
theorem encOut_settles (around : Surroundings) (ended : w.helloEnded = true)
    (idle : w.writeSize = 0) (noSession : w.newSessionWait = false)
    (established : w.established = true) (nothing : w.isEmptied = true) :
    ∃ w', encOut around w = some w' ∧ w'.pendingWriteItems = [] ∧ w'.writeItemQueue = [] := by
  obtain ⟨taken, sent⟩ := isEmptied_iff.mp nothing
  have queue : (splitOff w).writeItemQueue = [] := by
    rw [splitOff]
    split_ifs with splits
    · rfl
    by_contra queue
    exact splits ⟨established, queue⟩
  have taken' : (splitOff w).clearIn.length = 0 := by simp [(samePlain_splitOff w).clearIn, taken]
  have sent' : (splitOff w).encOut.length = 0 := by
    rw [splitOff]
    split_ifs
    · exact length_eq_zero_iff.mpr sent
    · exact length_eq_zero_iff.mpr sent
  have closed : ¬(w.helloEnded = false ∨ w.writeSize ≠ 0 ∨ w.newSessionWait = true) := by
    rw [ended, idle, noSession]
    decide
  rw [encOut_eq, if_neg closed, encOutPending, if_pos sent', if_pos taken']
  refine ⟨_, rfl, ?_⟩
  rw [invokeQueued]
  split_ifs with none_
  · exact ⟨none_, queue⟩
  · exact ⟨rfl, queue⟩

/-- What holds between two calls, behind writes of some plaintext -/
structure Kept (plaintext : List UInt8) (w : TLSWrap Request) : Prop where
  plain : w.accepted ++ w.clearIn = plaintext
  requests : Requests w

theorem kept_new : Kept [] (.new : TLSWrap Request) := ⟨rfl, requests_new⟩

namespace Kept

variable {plaintext : List UInt8} {event : Event Request}

theorem encOut (noErrors : around.NoErrors) (kept : Kept plaintext w) :
    ∃ w', Tls.encOut around w = some w' ∧ Kept plaintext w' := by
  obtain ⟨w', out, requests, same⟩ := encOut_spec noErrors kept.requests
  refine ⟨w', out, ?_, requests⟩
  rw [same.accepted, same.clearIn]
  exact kept.plain

theorem after (kept : Kept plaintext w) (did : Written) : Kept plaintext (w.after did) :=
  ⟨kept.plain, kept.requests.forward (forwarded_after w did)⟩

theorem clearIn (allOrNothing : around.AllOrNothing) (kept : Kept plaintext w) :
    ∃ all w', Tls.clearIn around w = some (all, w') ∧ Kept plaintext w' := by
  obtain ⟨all, w', cleared, forwarded, moved, -⟩ := clearIn_spec allOrNothing w
  exact ⟨all, w', cleared, moved.trans kept.plain, kept.requests.forward forwarded⟩

theorem encOutCb (allOrNothing : around.AllOrNothing) (noErrors : around.NoErrors)
    (kept : Kept plaintext w) (writing : w.writeSize ≠ 0) (atTop : w.taken = []) (status : Int) :
    ∃ w', Tls.encOutCb around w status = some w' ∧ Kept plaintext w' := by
  rw [Tls.encOutCb]
  have sent : w.encOut ≠ [] := by
    intro none_
    have size := kept.requests.size
    rw [none_, length_nil] at size
    exact writing (Nat.le_zero.mp size)
  by_cases error : status ≠ 0
  · rw [if_pos error]
    by_cases shut : w.shutdown = true
    · rw [if_pos shut]
      exact ⟨w, rfl, kept⟩
    rw [if_neg shut]
    have same := samePlain_invokeQueued w status
    refine ⟨_, rfl, ?_, kept.requests.invokeQueued (fun ok => absurd ok error) (fun _ => atTop)
      fun _ _ => .inr sent⟩
    rw [same.accepted, same.clearIn]
    exact kept.plain
  rw [if_neg error]
  obtain ⟨all, w₁, cleared, forwarded, moved, -⟩ :=
    clearIn_spec allOrNothing { w with encOut := w.encOut.drop w.writeSize }
  -- there is no loop of `InvokeQueued` that ciphertext could be needed for
  have committed : Requests { w with encOut := w.encOut.drop w.writeSize, writeSize := 0 } :=
    { kept.requests with
      behind := fun running => absurd atTop running
      size := Nat.zero_le _ }
  have idle : Requests { w₁ with writeSize := 0 } := committed.forward forwarded.idle
  rw [cleared]
  exact Kept.encOut noErrors ⟨moved.trans kept.plain, idle⟩

theorem doWrite_empty (noErrors : around.NoErrors) (kept : Kept plaintext w) (request : Request)
    (sent : w.encOut ≠ []) :
    ∃ w', Tls.encOut around (w.pushBack request) = some w' ∧ Kept plaintext w' := by
  have requests : Requests (w.pushBack request) := kept.requests.pushBack (.inr sent) (.refl _)
  exact Kept.encOut noErrors ⟨kept.plain, requests⟩

theorem doWrite (allOrNothing : around.AllOrNothing) (noErrors : around.NoErrors)
    (kept : Kept plaintext w) (request : Request) (bufs : List (List UInt8)) :
    ∃ err w', Tls.doWrite around w request bufs = some (err, w') ∧
      Kept (plaintext ++ bufs.flatten) w' := by
  rw [Tls.doWrite]
  by_cases empty : bufs.all List.isEmpty = true
  · have none_ : bufs.flatten = [] := by
      simpa using fun buf mem => List.isEmpty_iff.mp (List.all_eq_true.mp empty buf mem)
    rw [if_pos empty, none_, append_nil]
    by_cases sent : w.encOut.length = 0
    · rw [if_pos sent]
      exact ⟨_, _, rfl, kept.plain, { kept.requests with }⟩
    rw [if_neg sent]
    obtain ⟨w', out, kept'⟩ := kept.doWrite_empty noErrors request
      (fun nothing => sent (length_eq_zero_iff.mpr nothing))
    rw [out]
    exact ⟨0, w', rfl, kept'⟩
  rw [if_neg empty]
  have some_ : bufs.flatten ≠ [] := by
    intro none_
    refine empty (List.all_eq_true.mpr fun buf mem => ?_)
    exact List.isEmpty_iff.mpr (flatten_eq_nil_iff.mp none_ buf mem)
  obtain ⟨all, w₁, cleared, forwarded, moved, through⟩ :=
    clearIn_spec allOrNothing (w.pushBack request)
  have moved := moved.trans kept.plain
  rw [cleared]
  cases all with
  | false =>
    have holds : (w₁.enqueue bufs).Holds := .inl (append_ne_nil_of_right_ne_nil _ some_)
    refine ⟨0, _, rfl, ?_, kept.requests.pushBack holds
      (forwarded.trans (forwarded_enqueue w₁ bufs))⟩
    show w₁.accepted ++ (w₁.clearIn ++ bufs.flatten) = _
    rw [← append_assoc, moved]
  | true =>
    obtain ⟨rest, w₂, looped, more, same, moved', left⟩ := writeLoop_spec allOrNothing bufs w₁
    have none_ := through rfl
    have holds : (w₂.enqueue rest).Holds := by
      rcases left some_ with waits | sent
      · exact .inl (append_ne_nil_of_right_ne_nil _ waits)
      · exact .inr sent
    have requests := kept.requests.pushBack holds
      ((forwarded.trans more).trans (forwarded_enqueue w₂ rest))
    have plain : w₂.accepted ++ (w₂.clearIn ++ rest.flatten) = plaintext ++ bufs.flatten := by
      rw [none_, append_nil] at moved
      simp [same, none_, moved', moved]
    obtain ⟨w', out, kept'⟩ := Kept.encOut noErrors ⟨plain, requests⟩
    dsimp only
    rw [looped]
    dsimp only
    rw [out]
    exact ⟨0, w', rfl, kept'⟩

theorem gates (kept : Kept plaintext w) (helloEnded newSessionWait shutdown : Bool) :
    Kept plaintext { w with helloEnded, newSessionWait, shutdown } :=
  ⟨kept.plain, { kept.requests with }⟩

theorem silent (kept : Kept plaintext w) (none_ : event.plaintext = []) :
    Kept (plaintext ++ event.plaintext) w := by
  simpa [none_] using kept

/-- Without errors an event is handled, and its plaintext is kept in order. -/
theorem handle (allOrNothing : around.AllOrNothing) (noErrors : around.NoErrors)
    (kept : Kept plaintext w) (possible : Possible w event) :
    ∃ w', Tls.handle around w event = some w' ∧ Kept (plaintext ++ event.plaintext) w' := by
  cases event with
  | doWrite request bufs =>
    obtain ⟨err, w', wrote, kept'⟩ := kept.doWrite allOrNothing noErrors request bufs
    exact ⟨w', congrArg (Option.map Prod.snd) wrote, kept'⟩
  | clearIn =>
    obtain ⟨all, w', cleared, kept'⟩ := kept.clearIn allOrNothing
    exact ⟨w', congrArg (Option.map Prod.snd) cleared, kept'.silent rfl⟩
  | sslRead did =>
    rw [Tls.handle]
    split_ifs
    · exact ⟨_, rfl, (kept.after did).silent rfl⟩
    · exact ⟨w, rfl, kept.silent rfl⟩
  | encOut =>
    obtain ⟨w', out, kept'⟩ := kept.encOut noErrors
    exact ⟨w', out, kept'.silent rfl⟩
  | doShutdown did =>
    have shut := (kept.after did).gates w.helloEnded (w.after did).newSessionWait true
    obtain ⟨w', out, kept'⟩ := shut.encOut noErrors
    exact ⟨w', out, kept'.silent rfl⟩
  | encOutCb status =>
    obtain ⟨w', out, kept'⟩ := kept.encOutCb allOrNothing noErrors possible.1 possible.2 status
    exact ⟨w', out, kept'.silent rfl⟩
  | done =>
    have same := samePlain_done w
    have kept' : Kept plaintext (done w) := by
      refine ⟨?_, kept.requests.done possible⟩
      rw [same.accepted, same.clearIn]
      exact kept.plain
    exact ⟨_, rfl, kept'.silent rfl⟩
  | enableHelloParser => exact ⟨_, rfl, (kept.gates false w.newSessionWait w.shutdown).silent rfl⟩
  | onClientHelloParseEnd =>
    exact ⟨_, rfl, (kept.gates true w.newSessionWait w.shutdown).silent rfl⟩
  | newSessionDone => exact ⟨_, rfl, (kept.gates w.helloEnded false w.shutdown).silent rfl⟩

/-- Without errors, the plaintext of a run is kept in order. -/
theorem run (allOrNothing : around.AllOrNothing) (noErrors : around.NoErrors)
    {events : List (Event Request)} (run : Run around events w) :
    Kept (events.flatMap Event.plaintext) w := by
  induction run with
  | refl => exact kept_new
  | tail _ stepped ih =>
    obtain ⟨possible, handled⟩ := stepped
    obtain ⟨w', handled', kept⟩ := ih.handle allOrNothing noErrors possible
    simpa using some.inj (handled'.symm.trans handled) ▸ kept

end Kept

/-- **The write path**: plaintext goes through OpenSSL in the order of the writes, what it has not
accepted is in `clear_in_`, requests are completed once and in their order, those with status 0 were
taken when nothing was left, and no `CHECK` fails; where nothing is left, the next `EncOut` behind
the gates lets no request wait. -/
theorem write_path (allOrNothing : around.AllOrNothing) (noErrors : around.NoErrors)
    {events : List (Event Request)} (run : Run around events w) :
    w.accepted ++ w.clearIn = events.flatMap Event.plaintext ∧
      w.completed.map Completion.request ++ w.waiting = w.queued ∧
      (∀ c ∈ w.completed, c.status = 0 → c.clean = true) ∧
      (∀ event, Possible w event → handle around w event ≠ none) ∧
      (w.helloEnded = true → w.writeSize = 0 → w.newSessionWait = false → w.established = true →
        w.isEmptied = true →
          ∃ w', encOut around w = some w' ∧ w'.pendingWriteItems = [] ∧
            w'.writeItemQueue = []) := by
  have kept := Kept.run allOrNothing noErrors run
  refine ⟨kept.plain, kept.requests.order, kept.requests.clean, fun event possible none_ => ?_,
    encOut_settles around⟩
  obtain ⟨w', handled, -⟩ := kept.handle allOrNothing noErrors possible
  simp [none_] at handled

/-! ## A write from a completion -/

/-- Data of one byte or more goes into a record of one byte. -/
def plainSurroundings : Surroundings where
  sslWrite _ length := ⟨length, if 0 < length then [0] else [], false, false⟩
  buffered _ := 0
  doWrite _ := 0

theorem plainSurroundings_allOrNothing : plainSurroundings.AllOrNothing := by
  intro call length
  refine .inr ⟨rfl, fun some_ => ?_⟩
  show (if 0 < length then [0] else []) ≠ ([] : List UInt8)
  simp [some_]

theorem plainSurroundings_noErrors : plainSurroundings.NoErrors := fun _ => rfl

/-- Two writes behind a handshake, which are completed together, and a third one from the first
`Done` -/
def together : List (Event ℕ) :=
  [.sslRead ⟨0, [], true, false⟩, .doWrite 1 [[97]], .doWrite 2 [[98]], .encOutCb 0, .encOutCb 0,
    .done, .doWrite 3 [[99]], .done]

theorem write_path_together : ∃ w, Run plainSurroundings together w ∧
    w.accepted ++ w.clearIn = together.flatMap Event.plaintext ∧
    w.completed.map Completion.request ++ w.waiting = w.queued := by
  have run : ∃ w, exec (handle plainSurroundings) Possible .new together = some w := by
    rw [← isSome_iff_exists]
    decide +kernel
  obtain ⟨w, done⟩ := run
  have steps : Run plainSurroundings together w := Steps.of_exec .refl done
  have kept := write_path plainSurroundings_allOrNothing plainSurroundings_noErrors steps
  exact ⟨w, steps, kept.1, kept.2.1⟩

/-- **The second request** is completed with status 0 while the third one's record is left. -/
theorem completed_behind_write :
    ¬∀ (around : Surroundings) (events : List (Event ℕ)) (w : TLSWrap ℕ), around.AllOrNothing →
      around.NoErrors → Run around events w → ∀ c ∈ w.completed, c.status = 0 →
      c.emptied = true := by
  intro claim
  have run : (exec (handle plainSurroundings) Possible .new together).map TLSWrap.completed =
      some [⟨1, 0, true, true⟩, ⟨2, 0, true, false⟩] := by
    decide +kernel
  obtain ⟨w, done, completed⟩ := map_eq_some_iff.mp run
  have steps : Run plainSurroundings together w := Steps.of_exec .refl done
  have emptied := claim _ _ w plainSurroundings_allOrNothing plainSurroundings_noErrors steps
    ⟨2, 0, true, false⟩
  rw [completed] at emptied
  have emptied := emptied (by decide) rfl
  cases emptied

end IoJs.Tls
