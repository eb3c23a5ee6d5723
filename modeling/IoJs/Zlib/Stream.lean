import IoJs.Library.Steps

/-!
# Streams of `zlib`

A `Zlib` is a `Transform` with a native context, which works in a thread of its own. The code of the
user can run, and call in again, from `push`, from listeners of `error`, and behind each callback;
so what is left of a function then waits on a stack (`Frame`).
-/

namespace IoJs.Zlib

open IoJs.Library

/-- What a native write was made for: a chunk, with the callback of `_transform`, or `_flush` -/
inductive Owner where
  | chunk
  | flush
  deriving DecidableEq

/-- What goes wrong -/
inductive Fault where
  /-- A `TypeError`: `_handle` is `null`. -/
  | nullHandle
  /-- A `CHECK` of the native context fails, and the process is aborted. -/
  | check (message : String)
  /-- An error that code of the streams throws -/
  | thrown (message : String)

/-- `ZCtx` -/
structure Context where
  writeInProgress : Bool
  pendingClose : Bool
  /-- `mode_ == NONE` -/
  finalized : Bool
  refs : Nat
  /-- `uv_queue_work`, with what `req.callback` will do -/
  work : Option Owner

namespace Context

/-- `Write<true>` -/
def write (ctx : Context) (owner : Owner) : Except Fault Context :=
  if ctx.finalized then .error (.check "already finalized")
  else if ctx.writeInProgress then .error (.check "write already in progress")
  else if ctx.pendingClose then .error (.check "close is pending")
  else .ok { ctx with writeInProgress := true, refs := ctx.refs + 1, work := some owner }

def close (ctx : Context) : Context :=
  if ctx.writeInProgress then { ctx with pendingClose := true }
  else { ctx with pendingClose := false, finalized := true }

/-- `if (ctx->pending_close_) ctx->Close()` -/
def closePending (ctx : Context) : Context := if ctx.pendingClose then ctx.close else ctx

def unref (ctx : Context) : Except Fault Context :=
  if 0 < ctx.refs then .ok { ctx with refs := ctx.refs - 1 } else .error (.check "refs_ > 0")

end Context

/-- What waits for code of the user to return -/
inductive Frame where
  /-- `callback` of `_processChunk`, behind `push`; the output window may be full. -/
  | pushed (owner : Owner) (full : Bool)
  /-- `ZCtx::After`, behind the callback -/
  | called
  /-- `ZCtx::Error`, behind `onerror`; `SetDictionary` may fail behind it. -/
  | failed (dictionaryFails : Option String)
  deriving DecidableEq

/-- How the user is told -/
inductive Report where
  /-- The callback of a write, and an `'error'` event -/
  | write (message : String)
  /-- An `'error'` event -/
  | event (message : String)
  /-- An `AssertionError` -/
  | assertion (message : String)

end IoJs.Zlib

structure IoJs.Zlib where
  /-- `_handle !== null` -/
  hasHandle : Bool
  hadError : Bool
  closed : Bool
  transforming : Bool
  /-- `ts.writechunk !== null && ts.writecb` -/
  holdsChunk : Bool
  /-- `ws.writing` -/
  writing : Bool
  ending : Bool
  ended : Bool
  prefinished : Bool
  ctx : Zlib.Context
  stack : List Zlib.Frame
  reports : List Zlib.Report

namespace IoJs.Zlib

/-- What a native write has come to -/
inductive Result where
  | error (message : String)
  /-- `availOutAfter === 0` -/
  | full
  /-- There is output, and there is room for more. -/
  | output
  | nothing

/-- Behind the constructor -/
def new : Zlib where
  hasHandle := true
  hadError := false
  closed := false
  transforming := false
  holdsChunk := false
  writing := false
  ending := false
  ended := false
  prefinished := false
  ctx := ⟨false, false, false, 0, none⟩
  stack := []
  reports := []

def report (z : Zlib) (r : Report) : Zlib := { z with reports := z.reports ++ [r] }

/-! ## `Transform` -/

/-- `afterTransform`, with `onwrite`; what is called behind it are further events. -/
def afterTransform (z : Zlib) (er : Option String) : Zlib :=
  let z := { z with transforming := false }
  if !z.holdsChunk then z.report (.event "no writecb in Transform class")
  else
    let z := { z with holdsChunk := false, writing := false }
    match er with
    | none => z
    | some er => z.report (.write er)

/-- `done` of `Transform`, up to `push(null)`; there is no length without a write. -/
def done (z : Zlib) (er : Option String) : Except Fault Zlib :=
  match er with
  | some er => .ok (z.report (.event er))
  | none =>
    if z.writing then .error (.thrown "calling transform done when ws.length != 0")
    else if z.transforming then .error (.thrown "calling transform done when still transforming")
    else .ok z

/-- `cb` of `_transform` -/
def cb (z : Zlib) (owner : Owner) (er : Option String) : Except Fault Zlib :=
  match owner with
  | .chunk => .ok (z.afterTransform er)
  | .flush => z.done er

/-! ## `Zlib` -/

def handleWrite (z : Zlib) (owner : Owner) : Except Fault Zlib :=
  if z.hasHandle then (z.ctx.write owner).map fun ctx => { z with ctx } else .error .nullHandle

/-- `_processChunk`, with a callback -/
def processChunk (z : Zlib) (owner : Owner) : Except Fault Zlib :=
  if z.closed then .error (.thrown "zlib binding closed") else z.handleWrite owner

def transform (z : Zlib) (owner : Owner) (isBuffer : Bool) : Except Fault Zlib :=
  if !isBuffer then z.cb owner (some "invalid input")
  else if z.closed then z.cb owner (some "zlib binding closed")
  else z.processChunk owner

/-- `callback` of `_processChunk`, behind `push` -/
def pushed (z : Zlib) (owner : Owner) (full : Bool) : Except Fault Zlib :=
  if full then z.handleWrite owner else z.cb owner none

/-- `callback` of `_processChunk`, up to `push` -/
def callback (z : Zlib) (owner : Owner) (result : Result) : Except Fault Zlib :=
  if z.hadError then .ok z
  else
    match result with
    | .full => .ok { z with stack := .pushed owner true :: z.stack }
    | .output => .ok { z with stack := .pushed owner false :: z.stack }
    | _ => z.pushed owner false

/-- `ZCtx::Error` with `onerror`, up to the listeners of `'error'` -/
def error (z : Zlib) (message : String) (dictionaryFails : Option String) : Zlib :=
  { z with
    hasHandle := false
    hadError := true
    reports := z.reports ++ [.event message]
    stack := .failed dictionaryFails :: z.stack }

/-- `reset`, with the errors of the native `Reset` and `SetDictionary` -/
def reset (z : Zlib) (resetFails dictionaryFails : Option String) : Except Fault Zlib :=
  if z.closed then .ok (z.report (.assertion "zlib binding closed"))
  else if z.hasHandle then
    match resetFails, dictionaryFails with
    | some message, _ => .ok (z.error message dictionaryFails)
    | none, some message => .ok (z.error message none)
    | none, none => .ok z
  else .error .nullHandle

def close (z : Zlib) : Except Fault Zlib :=
  if z.closed then .ok z
  else if z.hasHandle then .ok { z with closed := true, ctx := z.ctx.close }
  else .error .nullHandle

/-- `Transform.prototype._read` -/
def read (z : Zlib) (isBuffer : Bool) : Except Fault Zlib :=
  if z.holdsChunk && !z.transforming then
    { z with transforming := true }.transform .chunk isBuffer
  else .ok z

/-- `ZCtx::After` -/
def after (z : Zlib) (result : Result) : Except Fault Zlib :=
  match z.ctx.work with
  | none => .ok z
  | some owner =>
    let z := { z with ctx := { z.ctx with work := none } }
    match result with
    | .error message => .ok (z.error message none)
    | result =>
      { z with
        ctx := { z.ctx with writeInProgress := false }
        stack := .called :: z.stack }.callback owner result

/-- Code of the user returns. -/
def return_ (z : Zlib) : Except Fault Zlib :=
  match z.stack with
  | [] => .ok z
  | .pushed owner full :: stack => { z with stack }.pushed owner full
  | .called :: stack => z.ctx.unref.map fun ctx => { z with ctx := ctx.closePending, stack }
  | .failed dictionaryFails :: stack =>
    let unrefd := if z.ctx.writeInProgress then z.ctx.unref else .ok z.ctx
    unrefd.map fun ctx =>
      let z := { z with ctx := { ctx with writeInProgress := false }.closePending, stack }
      match dictionaryFails with
      | none => z
      | some message => z.error message none

/-! ## Runs -/

inductive Event where
  /-- A chunk is passed to `_write`, of a write, a flush or the buffer. -/
  | write
  /-- `_read` is called. -/
  | read (isBuffer : Bool)
  /-- `end`, up to `finishMaybe` -/
  | end_
  /-- `'prefinish'`, with `_flush` -/
  | prefinish
  /-- What is left of `end` -/
  | ended
  | reset (resetFails dictionaryFails : Option String)
  | close
  /-- The event loop has a result of the native context. -/
  | after (result : Result)
  /-- Code of the user returns. -/
  | return_

/-- What can happen. Behind `'prefinish'` nothing is buffered, and writes are refused once `ended`
is set. -/
def Possible (z : Zlib) : Event → Prop
  | .write => z.writing = false ∧ (z.prefinished = true → z.ended = false)
  | .prefinish => z.ending = true ∧ z.writing = false ∧ z.prefinished = false
  | .ended => z.ending = true
  | .after _ => z.stack = [] ∧ z.ctx.work ≠ none
  | .return_ => z.stack ≠ []
  | _ => True

def step (z : Zlib) : Event → Except Fault Zlib
  | .write => .ok { z with writing := true, holdsChunk := true }
  | .read isBuffer => z.read isBuffer
  | .end_ => .ok { z with ending := true }
  | .prefinish => { z with prefinished := true }.transform .flush true
  | .ended => .ok { z with ended := true }
  | .reset resetFails dictionaryFails => z.reset resetFails dictionaryFails
  | .close => z.close
  | .after result => z.after result
  | .return_ => z.return_

/-- A step of a run -/
def Next (z : Zlib) (event : Event) (z' : Zlib) : Prop := Possible z event ∧ step z event = .ok z'

end IoJs.Zlib
