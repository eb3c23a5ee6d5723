import IoJs.Timers.Lists

/-!
# What the program can do with timers

The functions that the program calls are made of `active`, `unenroll` and changes that the lists do
not notice (`Quiet`): to make an object, to drop its callback, or to set the timeout of an item that
is in no list. What these keep is kept by every call of the program, `_unrefActive` apart
(`Kept.call`).
-/

namespace IoJs.Timers

open Option

/-- Nothing happens to the lists, and to the times of the items that they hold. -/
structure Quiet (s s' : State) : Prop where
  linked : Linked s' s.contents
  times : ∀ {h i}, i ∈ s.contents h → (s'.items i).idleStart = (s.items i).idleStart ∧
    (s'.items i).idleTimeout = (s.items i).idleTimeout
  count : s.itemCount ≤ s'.itemCount
  dropped : ∀ {i}, i < s.itemCount → (s.items i).onTimeout = none → (s'.items i).onTimeout = none
  now : s'.now = s.now
  lists : s'.lists = s.lists
  timers : s'.timers = s.timers
  timerCount : s'.timerCount = s.timerCount
  unrefTimer : s'.unrefTimer = s.unrefTimer
  phase : s'.phase = s.phase
  unrefRetries : s'.unrefRetries = s.unrefRetries
  trace : s'.trace = s.trace

/-- A property that the operations on items keep -/
structure Kept (P : State → Prop) : Prop where
  linked : ∀ {s}, P s → Linked s s.contents
  quiet : ∀ {s s'}, P s → Quiet s s' → P s'
  active : ∀ {s i}, P s → i < s.itemCount → P (s.active i)
  unenroll : ∀ {s i}, P s → i < s.itemCount → P (s.unenroll i)

/-- The program calls a function of the module; `_unrefActive` is not among them. -/
def Action.isCall : Action → Bool
  | .create .. | .setTimeout .. | .setInterval _ | .clearTimeout _ | .clearInterval _
  | .enroll .. | .active _ | .unenroll _ => true
  | _ => false

variable {P : State → Prop} {s s' : State} {i : Nat}

namespace Quiet

theorem contents (quiet : Quiet s s') : s'.contents = s.contents := quiet.linked.contents_eq

section

variable (linked : Linked s s.contents)
include linked

theorem setItem {item : Item} (start : item.idleStart = (s.items i).idleStart)
    (timeout : item.idleTimeout = (s.items i).idleTimeout)
    (callback : item.onTimeout = none ∨ item.onTimeout = (s.items i).onTimeout) :
    Quiet s (s.setItem i item) where
  linked := by
    refine linked.setItem i item fun wrapper => ?_
    rcases callback with none_ | same
    · rw [none_] at wrapper
      cases wrapper
    · exact linked.wrapper (same ▸ wrapper)
  times := by
    intro h j mem
    by_cases same : j = i
    · subst same
      rw [State.items_setItem_self]
      exact ⟨start, timeout⟩
    rw [State.items_setItem_of_ne same]
    exact ⟨rfl, rfl⟩
  count := Nat.le_refl _
  dropped := by
    intro j _ gone
    by_cases same : j = i
    · subst same
      rw [State.items_setItem_self]
      exact callback.elim id fun same => same.trans gone
    · rwa [State.items_setItem_of_ne same]
  now := rfl
  lists := rfl
  timers := rfl
  timerCount := rfl
  unrefTimer := rfl
  phase := rfl
  unrefRetries := rfl
  trace := rfl

theorem setTimeout (absent : ∀ h, i ∉ s.contents h) (msecs : ℚ) :
    Quiet s { s.setItem i { s.items i with idleTimeout := msecs } with
      links := s.links.init (.item i) } where
  linked :=
    (linked.setItem i { s.items i with idleTimeout := msecs } linked.wrapper).init_item absent
  times := by
    intro h j mem
    have other : j ≠ i := fun same => absent h (same ▸ mem)
    rw [State.items_setItem_of_ne other]
    exact ⟨rfl, rfl⟩
  count := Nat.le_refl _
  dropped := by
    intro j _ gone
    by_cases same : j = i
    · subst same
      rwa [State.items_setItem_self]
    · rwa [State.items_setItem_of_ne same]
  now := rfl
  lists := rfl
  timers := rfl
  timerCount := rfl
  unrefTimer := rfl
  phase := rfl
  unrefRetries := rfl
  trace := rfl

theorem makeItem (item : Item)
    (wrapper : ∀ {repeat_}, item.onTimeout = some (.wrapper repeat_) → 1 ≤ repeat_) :
    Quiet s (s.makeItem item) where
  linked := linked.makeItem item wrapper
  times := by
    intro h j mem
    have other : j ≠ s.itemCount := Nat.ne_of_lt (linked.known mem)
    have same : (s.makeItem item).items j = s.items j := State.items_setItem_of_ne other _ _
    rw [same]
    exact ⟨rfl, rfl⟩
  count := Nat.le_succ _
  dropped := by
    intro j known gone
    have same : (s.makeItem item).items j = s.items j :=
      State.items_setItem_of_ne (Nat.ne_of_lt known) _ _
    rwa [same]
  now := rfl
  lists := rfl
  timers := rfl
  timerCount := rfl
  unrefTimer := rfl
  phase := rfl
  unrefRetries := rfl
  trace := rfl

theorem makeTimeout (after : ℚ) {onTimeout : Option OnTimeout}
    (repeat_ : Bool) (wrapper : ∀ {after'}, onTimeout = some (.wrapper after') → 1 ≤ after') :
    Quiet s (s.makeTimeout after onTimeout repeat_) := by
  have made := makeItem linked ⟨true, 0, after, onTimeout, repeat_⟩ wrapper
  refine { made with linked := made.linked.init_item ?_ }
  exact linked.absent_of_le (Nat.le_refl _)

end

end Quiet

namespace Kept

theorem one_le_clamp (after : Option ℚ) : 1 ≤ State.clamp after := by
  cases after with
  | none => exact le_refl _
  | some after =>
    change 1 ≤ if after ≥ 1 ∧ after ≤ timeoutMax then after else 1
    split_ifs with bounds
    · exact bounds.1
    · exact le_refl _

section

variable (kept : Kept P) (holds : P s)
include kept holds

theorem setTimeout (after : Option ℚ) (callable : Bool) : P (s.setTimeout after callable) := by
  refine kept.active (kept.quiet holds (.makeTimeout (kept.linked holds) _ _ ?_))
    (Nat.lt_succ_self _)
  intro after' wrapper
  split_ifs at wrapper
  cases wrapper

theorem setInterval (repeat_ : Option ℚ) : P (s.setInterval repeat_) := by
  refine kept.active (kept.quiet holds (.makeTimeout (kept.linked holds) _ _ ?_))
    (Nat.lt_succ_self _)
  rintro after' ⟨⟩
  exact one_le_clamp repeat_

theorem dropCallback (i : Nat) : P (s.setItem i { s.items i with onTimeout := none }) :=
  kept.quiet holds (.setItem (kept.linked holds) rfl rfl (.inl rfl))

theorem clearTimeout (known : i < s.itemCount) : P (s.clearTimeout i) := by
  by_cases callable : (s.items i).onTimeout.isSome = true
  · have dropped := kept.dropCallback holds i
    rw [State.clearTimeout, if_pos callable]
    dsimp only
    split_ifs
    · exact kept.unenroll (kept.dropCallback dropped i) known
    · exact kept.unenroll dropped known
  · rwa [State.clearTimeout, if_neg callable]

theorem clearInterval (known : i < s.itemCount) : P (s.clearInterval i) := by
  rw [State.clearInterval]
  split_ifs
  · exact kept.clearTimeout (kept.quiet holds (.setItem (kept.linked holds) rfl rfl (.inr rfl)))
      known
  · exact holds

theorem enroll (known : i < s.itemCount) (msecs : ℚ) : P (s.enroll i msecs) := by
  have linked := kept.linked holds
  rw [State.enroll]
  split_ifs with negative free
  · exact holds
  · have unenrolled := kept.unenroll holds known
    refine kept.quiet unenrolled (.setTimeout (kept.linked unenrolled) ?_ _)
    rw [(linked.unenroll i).contents_eq]
    exact fun h => linked.holds.not_mem_without i h
  refine kept.quiet holds (.setTimeout linked (linked.absent_of_next ?_) _)
  rwa [Bool.not_eq_true, isSome_eq_false_iff, isNone_iff_eq_none] at free

theorem call {action : Action} (call : action.isCall = true)
    (stepped : s.step action = some s') : P s' := by
  cases action with
  | create idleTimeout callable =>
    obtain ⟨-, done⟩ := ite_none_right_eq_some.mp stepped
    cases done
    refine kept.quiet holds (.makeItem (kept.linked holds) _ ?_)
    intro repeat_ wrapper
    cases callable <;> cases wrapper
  | setTimeout after callable =>
    obtain ⟨-, done⟩ := ite_none_right_eq_some.mp stepped
    cases done
    exact kept.setTimeout holds after callable
  | setInterval repeat_ =>
    obtain ⟨-, done⟩ := ite_none_right_eq_some.mp stepped
    cases done
    exact kept.setInterval holds repeat_
  | clearTimeout i =>
    obtain ⟨able, done⟩ := ite_none_right_eq_some.mp stepped
    cases done
    exact kept.clearTimeout holds able.2
  | clearInterval i =>
    obtain ⟨able, done⟩ := ite_none_right_eq_some.mp stepped
    cases done
    exact kept.clearInterval holds able.2
  | enroll i msecs =>
    obtain ⟨able, done⟩ := ite_none_right_eq_some.mp stepped
    cases done
    exact kept.enroll holds able.2 msecs
  | active i =>
    obtain ⟨able, done⟩ := ite_none_right_eq_some.mp stepped
    cases done
    exact kept.active holds able.2
  | unenroll i =>
    obtain ⟨able, done⟩ := ite_none_right_eq_some.mp stepped
    cases done
    exact kept.unenroll holds able.2
  | _ => cases call

end

end Kept

end IoJs.Timers
