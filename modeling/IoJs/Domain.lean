import IoJs.Library.Runs
import Mathlib.Data.List.Basic

/-!
# The stack of domains

The domain that is active is the last one on `stack`. It is also in `exports.active` and
`process.domain`, and `_domain_flag[0]`, which C++ reads, is how many domains are on the stack.
-/

namespace IoJs.Domain

open IoJs.Library

/-- What is under way; `d` is a domain. -/
inductive Frame where
  /-- the function that `run`, `bound` or `intercepted` calls -/
  | body (d : Nat)
  /-- `this.emit('error', er)` of `_errorHandler` -/
  | handler (d : Nat)
  /-- `process._fatalException(er2)` of `_errorHandler` -/
  | rethrown
  /-- `process.domain._errorHandler(er)` of `_fatalException` -/
  | caughtByDomain
  /-- `process.emit('uncaughtException', er)` -/
  | uncaughtException
  /-- `process.emit('exit', 1)` -/
  | exit

/-- The program does not run in it. -/
def Frame.isInternal : Frame → Bool
  | rethrown | caughtByDomain => true
  | _ => false

/-- How a call has ended -/
inductive Outcome where
  | returned (caught : Bool)
  | raised

structure State where
  stack : List Nat
  /-- `exports.active` -/
  active : Option Nat
  /-- `process.domain` -/
  domain : Option Nat
  /-- `_domain_flag[0]` -/
  flag : Nat
  /-- `_disposed` -/
  disposed : Nat → Bool
  /-- `process._exiting` -/
  exiting : Bool
  frames : List Frame
  /-- what the call of the first frame has ended with, if the program does not run in it -/
  pending : Option Outcome

/-- What the program does, and `advance` where it does not run -/
inductive Action where
  | enter (d : Nat)
  | exit (d : Nat)
  | run (d : Nat)
  | bound (d : Nat)
  /-- `error`, if the first argument is one -/
  | intercepted (d : Nat) (error : Bool)
  | dispose (d : Nat)
  | errorHandler (d : Nat)
  | fatalException
  /-- A listener or a function returns; `caught` is what `emit` returns. -/
  | returns (caught : Bool)
  | throws
  | advance
  deriving DecidableEq

def lastIndexOf (d : Nat) : List Nat → Option Nat
  | [] => none
  | e :: stack =>
    match lastIndexOf d stack with
    | some index => some (index + 1)
    | none => if e = d then some 0 else none

namespace State

def initial : State where
  stack := []
  active := none
  domain := none
  flag := 0
  disposed := fun _ => false
  exiting := false
  frames := []
  pending := none

def push (frame : Frame) (s : State) : State := { s with frames := frame :: s.frames }

def pop (s : State) : State := { s with frames := s.frames.tail }

/-- What is under way goes on. -/
def resume (s : State) : State := { s.pop with pending := none }

/-- A call ends; the program, if it has made the call, goes on either way. -/
def settle (outcome : Outcome) (s : State) : State :=
  { s with pending := if s.frames.head?.any Frame.isInternal then some outcome else none }

/-- `Domain.prototype.enter` -/
def enter (d : Nat) (s : State) : State :=
  if s.disposed d then s
  else
    let stack := s.stack ++ [d]
    { s with active := some d, domain := some d, stack := stack, flag := stack.length }

/-- `Domain.prototype.exit` -/
def exit (d : Nat) (s : State) : State :=
  match lastIndexOf d s.stack with
  | none => s
  | some index =>
    if s.disposed d then s
    else
      -- exit all domains until this one.
      let stack := s.stack.take index
      { s with stack := stack, flag := stack.length, active := stack.getLast?
               domain := stack.getLast? }

/-- `Domain.prototype.run` -/
def run (d : Nat) (s : State) : State :=
  if s.disposed d then s else (s.enter d).push (.body d)

def bound (d : Nat) (s : State) : State := s.run d

def intercepted (d : Nat) (error : Bool) (s : State) : State :=
  if s.disposed d then s
  -- self.emit('error', er)
  else if error then s
  else (s.enter d).push (.body d)

/-- `Domain.prototype.dispose` -/
def dispose (d : Nat) (s : State) : State :=
  if s.disposed d then s
  else { s.exit d with disposed := Function.update s.disposed d true }

/-- `Domain.prototype._errorHandler`, up to the listeners -/
def errorHandler (d : Nat) (s : State) : State :=
  -- ignore errors on disposed domains.
  if s.disposed d then s.settle (.returned true) else s.push (.handler d)

/-- `process._fatalException`, up to the first handler -/
def fatalException (s : State) : State :=
  match s.domain with
  | some d => (s.push .caughtByDomain).errorHandler d
  | none => s.push .uncaughtException

/-- `_errorHandler`, behind the listeners -/
def handled (caught : Bool) (s : State) : State :=
  -- Exit all domains on the stack.
  { s.pop with stack := [], active := none, domain := none }.settle (.returned caught)

/-- What `_errorHandler` catches -/
def handlerThrew (d : Nat) (s : State) : State :=
  -- If the user already exited it, then don't double-exit.
  let s := if s.active = some d then { s.pop with stack := s.stack.dropLast } else s.pop
  match s.stack.getLast? with
  | some e => ({ s with active := some e, domain := some e }.push .rethrown).fatalException
  | none => s.settle (.returned false)

/-- The end of `_fatalException` -/
def finishFatal (caught : Bool) (s : State) : State :=
  if caught then s.settle (.returned true)
  else if s.exiting then s.settle (.returned false)
  else { s with exiting := true }.push .exit

/-- A listener or a function returns. -/
def returns (caught : Bool) (s : State) : Option State :=
  match s.frames with
  | .body d :: _ => some (s.pop.exit d)
  | .handler _ :: _ => some (s.handled caught)
  | .uncaughtException :: _ => some (s.pop.finishFatal caught)
  | .exit :: _ => some (s.pop.settle (.returned false))
  | _ => none

def throws (s : State) : Option State :=
  match s.frames with
  | .body _ :: _ => some s.pop
  | .handler d :: _ => some (s.handlerThrew d)
  | .uncaughtException :: _ => some (s.pop.settle .raised)
  -- nothing to be done about it at this point.
  | .exit :: _ => some (s.pop.settle (.returned false))
  | _ => none

/-- `_errorHandler` and `_fatalException` go on. -/
def advance (s : State) : Option State :=
  match s.pending, s.frames with
  | some (.returned caught), .caughtByDomain :: _ =>
    -- if (!caught) caught = process.emit('uncaughtException', er);
    some (if caught then s.resume.finishFatal true else s.resume.push .uncaughtException)
  | some outcome, _ :: _ => some (s.pop.settle outcome)
  | _, _ => none

def step (s : State) (action : Action) : Option State :=
  if action = .advance then s.advance
  else if s.pending.isSome then none
  else
    match action with
    | .enter d => some (s.enter d)
    | .exit d => some (s.exit d)
    | .run d => some (s.run d)
    | .bound d => some (s.bound d)
    | .intercepted d error => some (s.intercepted d error)
    | .dispose d => some (s.dispose d)
    | .errorHandler d => some (s.errorHandler d)
    | .fatalException => some s.fatalException
    | .returns caught => s.returns caught
    | .throws => s.throws
    | .advance => none

/-! ## What the operations keep -/

/-- The stack, as it is kept in four places -/
structure Consistent (s : State) : Prop where
  active : s.active = s.stack.getLast?
  domain : s.domain = s.stack.getLast?
  flag : s.flag = s.stack.length

/-- The stack and what is known about it are left alone. -/
structure Same (s s' : State) : Prop where
  stack : s'.stack = s.stack
  active : s'.active = s.active
  domain : s'.domain = s.domain
  flag : s'.flag = s.flag

variable {s s' s'' : State} {d : Nat}

namespace Same

theorem trans (first : Same s s') (second : Same s' s'') : Same s s'' where
  stack := second.stack.trans first.stack
  active := second.active.trans first.active
  domain := second.domain.trans first.domain
  flag := second.flag.trans first.flag

theorem consistent_iff (same : Same s s') : s'.Consistent ↔ s.Consistent := by
  constructor
  · rintro ⟨active, domain, flag⟩
    rw [same.stack] at active domain flag
    exact ⟨same.active ▸ active, same.domain ▸ domain, same.flag ▸ flag⟩
  rintro ⟨active, domain, flag⟩
  rw [← same.stack] at active domain flag
  exact ⟨same.active.trans active, same.domain.trans domain, same.flag.trans flag⟩

end Same

theorem push_same (frame : Frame) (s : State) : Same s (s.push frame) := ⟨rfl, rfl, rfl, rfl⟩

theorem pop_same (s : State) : Same s s.pop := ⟨rfl, rfl, rfl, rfl⟩

theorem resume_same (s : State) : Same s s.resume := ⟨rfl, rfl, rfl, rfl⟩

theorem settle_same (outcome : Outcome) (s : State) : Same s (s.settle outcome) :=
  ⟨rfl, rfl, rfl, rfl⟩

theorem errorHandler_same (d : Nat) (s : State) : Same s (s.errorHandler d) := by
  rw [errorHandler]
  split_ifs
  · exact settle_same _ s
  · exact push_same _ s

theorem fatalException_same (s : State) : Same s s.fatalException := by
  rw [fatalException]
  split
  · exact (push_same _ s).trans (errorHandler_same _ _)
  · exact push_same _ s

theorem finishFatal_same (caught : Bool) (s : State) : Same s (s.finishFatal caught) := by
  rw [finishFatal]
  split_ifs
  · exact settle_same _ s
  · exact settle_same _ s
  · exact ⟨rfl, rfl, rfl, rfl⟩

theorem advance_same (stepped : s.advance = some s') : Same s s' := by
  rw [advance] at stepped
  split at stepped
  · rename_i caught frames pending same
    cases stepped
    cases caught with
    | true => exact (resume_same s).trans (finishFatal_same true _)
    | false => exact (resume_same s).trans (push_same _ _)
  · cases stepped
    exact (pop_same s).trans (settle_same _ _)
  · cases stepped

section

variable (consistent : s.Consistent)
include consistent

theorem Consistent.enter (d : Nat) : (s.enter d).Consistent := by
  rw [State.enter]
  split_ifs
  · exact consistent
  have last : (s.stack ++ [d]).getLast? = some d := List.getLast?_concat
  exact ⟨last.symm, last.symm, rfl⟩

theorem Consistent.exit (d : Nat) : (s.exit d).Consistent := by
  rw [State.exit]
  split
  · exact consistent
  split_ifs
  · exact consistent
  · exact ⟨rfl, rfl, rfl⟩

theorem Consistent.push (frame : Frame) : (s.push frame).Consistent :=
  (push_same frame s).consistent_iff.mpr consistent

/-- `run` keeps the stack the same in all places. -/
theorem Consistent.run (d : Nat) : (s.run d).Consistent := by
  rw [State.run]
  split_ifs
  · exact consistent
  · exact (consistent.enter d).push _

theorem Consistent.intercepted (d : Nat) (error : Bool) : (s.intercepted d error).Consistent := by
  rw [State.intercepted]
  split_ifs
  · exact consistent
  · exact consistent
  · exact (consistent.enter d).push _

theorem Consistent.dispose (d : Nat) : (s.dispose d).Consistent := by
  rw [State.dispose]
  split_ifs
  · exact consistent
  have exited := consistent.exit d
  exact ⟨exited.active, exited.domain, exited.flag⟩

/-! ## The end of a handler -/

theorem Consistent.handled_iff (caught : Bool) : (s.handled caught).Consistent ↔ s.stack = [] := by
  have flag : (s.handled caught).flag = s.stack.length := consistent.flag
  constructor
  · intro after
    exact List.length_eq_zero_iff.mp (flag.symm.trans after.flag)
  intro empty
  refine ⟨rfl, rfl, flag.trans ?_⟩
  rw [empty]
  rfl

theorem Consistent.handlerThrew_iff (d : Nat) :
    (s.handlerThrew d).Consistent ↔ s.active ≠ some d := by
  by_cases here : s.active = some d
  · refine iff_of_false (fun after => ?_) (not_not_intro here)
    -- The flag still counts the domain that has been taken from the stack.
    have some_ : s.stack ≠ [] := by
      intro empty
      rw [consistent.active, empty] at here
      cases here
    have both : (s.handlerThrew d).stack = s.stack.dropLast ∧ (s.handlerThrew d).flag = s.flag := by
      rw [handlerThrew, if_pos here]
      split
      · exact ⟨(fatalException_same _).stack, (fatalException_same _).flag⟩
      · exact ⟨rfl, rfl⟩
    have counted := after.flag
    rw [both.1, both.2, consistent.flag, List.length_dropLast] at counted
    have filled := List.length_pos_iff.mpr some_
    omega
  refine iff_of_true ?_ here
  rw [handlerThrew, if_neg here]
  split
  · rename_i e last
    refine (fatalException_same _).consistent_iff.mpr (Consistent.push ?_ _)
    exact ⟨last.symm, last.symm, consistent.flag⟩
  · exact ((pop_same s).trans (settle_same _ _)).consistent_iff.mpr consistent

end

/-! ## Runs -/

/-- The domain whose handler runs -/
def handling (s : State) : Option Nat :=
  match s.frames with
  | .handler d :: _ => some d
  | _ => none

/-- A handler returns while no domain is on the stack, and throws while its own is not active. -/
def Fine (s : State) : Action → Prop
  | .returns _ => s.handling = none ∨ s.stack = []
  | .throws => s.handling = none ∨ s.active ≠ s.handling
  | _ => True

instance (s : State) : ∀ action, Decidable (s.Fine action)
  | .returns _ => inferInstanceAs (Decidable (_ ∨ _))
  | .throws => inferInstanceAs (Decidable (_ ∨ _))
  | .enter _ | .exit _ | .run _ | .bound _ | .intercepted _ _ | .dispose _ | .errorHandler _
  | .fatalException | .advance => isTrue trivial

theorem Consistent.returns_iff (consistent : s.Consistent) {caught : Bool}
    (stepped : s.returns caught = some s') : s'.Consistent ↔ s.Fine (.returns caught) := by
  have popped := (pop_same s).consistent_iff.mpr consistent
  have handling := State.handling.eq_def s
  rw [State.returns] at stepped
  split at stepped
  all_goals rename_i frames
  · rw [frames] at handling
    cases stepped
    exact iff_of_true (popped.exit _) (.inl handling)
  · rw [frames] at handling
    cases stepped
    refine (consistent.handled_iff caught).trans (or_iff_right fun none_ => ?_).symm
    rw [handling] at none_
    cases none_
  · rw [frames] at handling
    cases stepped
    exact iff_of_true ((finishFatal_same _ _).consistent_iff.mpr popped) (.inl handling)
  · rw [frames] at handling
    cases stepped
    exact iff_of_true ((settle_same _ _).consistent_iff.mpr popped) (.inl handling)
  · cases stepped

theorem Consistent.throws_iff (consistent : s.Consistent) (stepped : s.throws = some s') :
    s'.Consistent ↔ s.Fine .throws := by
  have popped := (pop_same s).consistent_iff.mpr consistent
  have handling := State.handling.eq_def s
  rw [State.throws] at stepped
  split at stepped
  all_goals rename_i frames
  · rw [frames] at handling
    cases stepped
    exact iff_of_true popped (.inl handling)
  · rw [frames] at handling
    cases stepped
    rw [Fine, handling, consistent.handlerThrew_iff]
    exact (or_iff_right nofun).symm
  · rw [frames] at handling
    cases stepped
    exact iff_of_true ((settle_same _ _).consistent_iff.mpr popped) (.inl handling)
  · rw [frames] at handling
    cases stepped
    exact iff_of_true ((settle_same _ _).consistent_iff.mpr popped) (.inl handling)
  · cases stepped

/-- **A step keeps the stack the same in all places** exactly when it is fine. -/
theorem Consistent.step_iff (consistent : s.Consistent) {action : Action}
    (stepped : s.step action = some s') : s'.Consistent ↔ s.Fine action := by
  unfold step at stepped
  by_cases internal : action = .advance
  · subst internal
    exact iff_of_true ((advance_same stepped).consistent_iff.mpr consistent) trivial
  split_ifs at stepped
  cases action with
  | enter d =>
    cases stepped
    exact iff_of_true (consistent.enter d) trivial
  | exit d =>
    cases stepped
    exact iff_of_true (consistent.exit d) trivial
  | run d | bound d =>
    cases stepped
    exact iff_of_true (consistent.run d) trivial
  | intercepted d error =>
    cases stepped
    exact iff_of_true (consistent.intercepted d error) trivial
  | dispose d =>
    cases stepped
    exact iff_of_true (consistent.dispose d) trivial
  | errorHandler d =>
    cases stepped
    exact iff_of_true ((errorHandler_same d s).consistent_iff.mpr consistent) trivial
  | fatalException =>
    cases stepped
    exact iff_of_true ((fatalException_same s).consistent_iff.mpr consistent) trivial
  | returns => exact consistent.returns_iff stepped
  | throws => exact consistent.throws_iff stepped
  | advance => cases stepped

theorem consistent_initial : initial.Consistent := ⟨rfl, rfl, rfl⟩

/-- **The stack is consistent** in every run whose steps are fine, and any other step breaks it. -/
theorem consistent_iff_fine (s : State) : (Run step Fine initial s → s.Consistent) ∧
    ∀ {s' : State} {action : Action}, s.Consistent → s.step action = some s' →
      (s'.Consistent ↔ s.Fine action) := by
  refine ⟨fun run => ?_, fun consistent stepped => consistent.step_iff stepped⟩
  refine run.invariant Consistent consistent_initial ?_
  intro s s' action consistent fine stepped
  exact (consistent.step_iff stepped).mpr fine

/-- A domain in another one is left by its handler before it throws. -/
theorem consistent_nested : ∃ s, Run step Fine initial s ∧ s.Consistent ∧ s.stack = [0] := by
  let actions : List Action := [.enter 0, .enter 1, .fatalException, .exit 1, .throws]
  have done : (exec step Fine initial actions).isSome = true ∧
      ∀ s ∈ exec step Fine initial actions, s.stack = [0] := by decide
  obtain ⟨s, run⟩ := Option.isSome_iff_exists.mp done.1
  have reached := Run.of_exec .refl run
  exact ⟨s, reached, (consistent_iff_fine s).1 reached, done.2 s run⟩

/-- An error in a domain is handled. -/
theorem handled_inconsistent : ¬∀ s, Run step (fun _ _ => True) initial s → s.Consistent := by
  intro claim
  let actions : List Action := [.enter 0, .fatalException, .returns true, .advance]
  have done : (exec step (fun _ _ => True) initial actions).isSome = true ∧
      ∀ s ∈ exec step (fun _ _ => True) initial actions, s.flag = 1 ∧ s.stack = [] := by decide
  obtain ⟨s, run⟩ := Option.isSome_iff_exists.mp done.1
  have flag := (claim s (Run.of_exec .refl run)).flag
  rw [(done.2 s run).1, (done.2 s run).2] at flag
  cases flag

end State

end IoJs.Domain
