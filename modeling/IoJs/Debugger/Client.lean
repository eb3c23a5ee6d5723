import IoJs.Library.Runs
import Mathlib.Data.List.InsertIdx
import Mathlib.Data.List.Nodup

/-!
# Requests of the debugger's client

The client numbers its requests, and a response has the number of the request that it answers. The
number is written onto the callback, which waits in `_reqCallbacks` for the response.
-/

namespace IoJs.Debugger

open List

/-- A callback is a function, which has an identity. -/
abbrev Callback := Nat

/-- A request that has not been answered: its number, and the callback that was given with it. -/
structure Request where
  seq : Nat
  cb : Callback
  deriving DecidableEq

/-- The client, and what the debugger has to answer. -/
structure State where
  -- of the parser
  reqSeq : Nat
  -- the property `request_seq` of the callbacks
  requestSeq : Callback → Nat
  reqCallbacks : List Callback
  unanswered : List Request
  -- `onResponse` has been called and has not returned
  responding : Bool

namespace State

def initial : State :=
  { reqSeq := 1, requestSeq := fun _ => 0, reqCallbacks := [], unanswered := [],
    responding := false }

/-- `Client.prototype.req`, with `serialize` -/
def req (s : State) (cb : Callback) : State :=
  let seq := s.reqSeq
  { s with
    reqSeq := s.reqSeq + 1
    requestSeq := Function.update s.requestSeq cb seq
    reqCallbacks := s.reqCallbacks ++ [cb]
    unanswered := s.unanswered ++ [{ seq, cb }] }

/-- `index`, of a response with a number -/
def index (s : State) (seq : Nat) : Option Nat :=
  s.reqCallbacks.findIdx? fun cb => s.requestSeq cb = seq

/-- `cb`: what is called -/
def callback (s : State) (seq : Nat) : Option Callback := do
  let index ← s.index seq
  s.reqCallbacks[index]?

def onResponse (s : State) (seq : Nat) : State :=
  match s.index seq with
  | some index => { s with reqCallbacks := s.reqCallbacks.eraseIdx index }
  | none => s

def newRes (s : State) : State := { s with reqSeq := 1 }

inductive Action where
  -- anyone makes a request: callbacks and listeners, too
  | req (cb : Callback)
  -- a message has been read
  | response (i : Nat)
  | event
  -- and has been dealt with
  | newRes

def step (s : State) : Action → Option State
  | .req cb => some (s.req cb)
  | .response i =>
    if s.responding then none
    else do
      let request ← s.unanswered[i]?
      some { s.onResponse request.seq with
        unanswered := s.unanswered.eraseIdx i
        responding := true }
  | .event => if s.responding then none else some { s with responding := true }
  | .newRes => if s.responding then some { s.newRes with responding := false } else none

/-- A request gets a number that no pending request has, and a callback that does not wait. -/
def fresh (s : State) : Action → Bool
  | .req cb => cb ∉ s.reqCallbacks && s.reqSeq ∉ s.reqCallbacks.map s.requestSeq
  | _ => true

end State

open State

theorem findIdx_of_nodup {α : Type} {f : α → Nat} {l : List α} (nodup : (l.map f).Nodup) :
    ∀ {i : Nat} {a : α}, l[i]? = some a → l.findIdx? (fun b => f b = f a) = some i := by
  induction l with
  | nil =>
    intro i a found
    cases found
  | cons b l ih =>
    intro i a found
    rw [map_cons, nodup_cons] at nodup
    rw [List.findIdx?_cons]
    cases i with
    | zero =>
      obtain rfl : b = a := by simpa using found
      simp
    | succ i =>
      have other : f b ≠ f a := fun same =>
        nodup.1 (same ▸ List.mem_map_of_mem (mem_of_getElem? found))
      simp [other, ih nodup.2 found]

/-- Each callback that waits has the number of its request. -/
structure Matching (s : State) : Prop where
  pending : s.reqCallbacks = s.unanswered.map (·.cb)
  numbered : ∀ request ∈ s.unanswered, s.requestSeq request.cb = request.seq
  distinct : (s.unanswered.map (·.seq)).Nodup

namespace Matching

variable {s s' : State} {i : Nat} {request : Request}

theorem initial : Matching initial where
  pending := rfl
  numbered _ mem := absurd mem not_mem_nil
  distinct := nodup_nil

section

variable (matching : Matching s)
include matching

theorem numbers : s.reqCallbacks.map s.requestSeq = s.unanswered.map (·.seq) := by
  rw [matching.pending, List.map_map]
  exact map_congr_left matching.numbered

theorem req {cb : Callback} (fresh : s.fresh (.req cb) = true) : Matching (s.req cb) := by
  simp only [State.fresh, Bool.and_eq_true, decide_eq_true_eq] at fresh
  obtain ⟨idle, unused⟩ := fresh
  rw [matching.numbers] at unused
  rw [matching.pending] at idle
  refine ⟨?_, ?_, ?_⟩
  · rw [State.req, matching.pending, map_append]
    rfl
  · intro request mem
    obtain old | new := mem_append.mp mem
    · have other : request.cb ≠ cb := fun same => idle (same ▸ List.mem_map_of_mem old)
      exact (Function.update_of_ne other _ _).trans (matching.numbered request old)
    obtain rfl := mem_singleton.mp new
    exact Function.update_self _ _ _
  rw [State.req, map_append, nodup_append']
  refine ⟨matching.distinct, nodup_singleton _, ?_⟩
  simpa using unused

theorem index (answered : s.unanswered[i]? = some request) : s.index request.seq = some i := by
  have here : s.reqCallbacks[i]? = some request.cb := by
    rw [matching.pending, List.getElem?_map, answered]
    rfl
  have nodup : (s.reqCallbacks.map s.requestSeq).Nodup := by
    rw [matching.numbers]
    exact matching.distinct
  rw [State.index, ← matching.numbered request (mem_of_getElem? answered)]
  exact findIdx_of_nodup nodup here

theorem callback (mem : request ∈ s.unanswered) : s.callback request.seq = some request.cb := by
  obtain ⟨i, answered⟩ := List.getElem?_of_mem mem
  rw [State.callback, matching.index answered, matching.pending]
  simp [answered]

theorem response (answered : s.unanswered[i]? = some request) :
    Matching { s.onResponse request.seq with
      unanswered := s.unanswered.eraseIdx i
      responding := true } := by
  have sublist := eraseIdx_sublist s.unanswered i
  rw [onResponse, matching.index answered]
  refine ⟨?_, ?_, ?_⟩
  · simp only [matching.pending, eraseIdx_map]
  · exact fun request mem => matching.numbered request (sublist.subset mem)
  · exact matching.distinct.sublist (sublist.map _)

/-- One step keeps callbacks matched with requests, if a request gets a fresh number. -/
theorem step {action : Action} (fresh : s.fresh action = true)
    (stepped : s.step action = some s') : Matching s' := by
  cases action with
  | req cb =>
    cases stepped
    exact matching.req fresh
  | response i =>
    rw [State.step] at stepped
    split_ifs at stepped
    obtain ⟨request, answered, eq⟩ := Option.bind_eq_some_iff.mp stepped
    cases eq
    exact matching.response answered
  | event | newRes =>
    rw [State.step] at stepped
    split_ifs at stepped
    cases stepped
    exact ⟨matching.pending, matching.numbered, matching.distinct⟩

end

end Matching

/-- **Requests and responses match.**  In every run in which a request is made only while no pending
request has the number that it gets, and with a callback that does not wait already: the pending
requests have distinct numbers, and a response calls the callback of the request that it answers. -/
theorem matching_of_run {s : State}
    (run : Library.Run step (fun s action => s.fresh action = true) initial s) :
    (s.reqCallbacks.map s.requestSeq).Nodup ∧
      ∀ request ∈ s.unanswered, s.callback request.seq = some request.cb := by
  have matching : Matching s := run.invariant Matching .initial fun matching fresh stepped =>
    matching.step fresh stepped
  refine ⟨?_, fun request mem => matching.callback mem⟩
  rw [matching.numbers]
  exact matching.distinct

/-- The first of two requests is answered, and then a third is made, which has its number. -/
theorem matching_of_three : ∃ s : State, s.unanswered = [⟨2, 11⟩, ⟨1, 12⟩] ∧
    (s.reqCallbacks.map s.requestSeq).Nodup ∧
    ∀ request ∈ s.unanswered, s.callback request.seq = some request.cb := by
  obtain ⟨s, run, eq⟩ := Library.Run.exists_of_exec step (fun s action => s.fresh action = true)
    initial (fun s => s.unanswered = [⟨2, 11⟩, ⟨1, 12⟩])
    [.req 10, .req 11, .response 0, .newRes, .req 12] (by decide)
  exact ⟨s, eq, matching_of_run run⟩

/-- A request is made after an event, while another is pending: both have the number 1, and the
response to the second calls the callback of the first. -/
theorem number_used_twice : ¬∀ s : State, Library.Run step (fun _ _ => True) initial s →
    (s.reqCallbacks.map s.requestSeq).Nodup ∧
      ∀ request ∈ s.unanswered, s.callback request.seq = some request.cb := by
  intro claim
  obtain ⟨s, run, numbers⟩ := Library.Run.exists_of_exec step (fun _ _ => True) initial
    (fun s => s.reqCallbacks.map s.requestSeq = [1, 1] ∧ s.callback 1 = some 10)
    [.req 10, .event, .newRes, .req 11] (by decide)
  have nodup := (claim s run).1
  rw [numbers.1] at nodup
  exact absurd nodup (by decide)

end IoJs.Debugger
