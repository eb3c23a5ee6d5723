import IoJs.Library.Steps

/-!
# The write path of `TLSWrap`

Plaintext that OpenSSL does not take yet waits in `clear_in_`, ciphertext in `enc_out_`; requests
wait in `write_item_queue_` and, from the first handshake on, in `pending_write_items_`.
`InvokeQueued` takes the latter, and each `Done` of its loop runs code of the user, who may call in
again; so the loop is cut at each of them (`done`). `ClearOut` runs such code too, behind each
`SSL_read`; `Cycle` is seen as the calls that it makes, in any order and number.
-/

namespace IoJs.Tls

open IoJs.Library

/-- What a call of `SSL_write` returns, and what it does besides -/
structure Written where
  written : Int
  /-- For `enc_out_`: records with the data, or messages of the handshake -/
  records : List UInt8
  /-- `SSLInfoCallback` with `SSL_CB_HANDSHAKE_DONE` -/
  handshakeDone : Bool
  /-- `NewSessionCallback` -/
  newSession : Bool

/-- What is around a `TLSWrap`, by the number of calls so far -/
structure Surroundings where
  /-- With the length of the data -/
  sslWrite : Nat → Nat → Written
  /-- How much is in the buffers that are peeked, behind the first byte -/
  buffered : Nat → Nat
  /-- What `stream_->DoWrite` returns -/
  doWrite : Nat → Int

/-- A local queue of `InvokeQueued` -/
structure Taken (Request : Type) where
  items : List Request
  status : Int
  /-- Nothing was left in `clear_in_` and `enc_out_`. -/
  clean : Bool

/-- A call of `Done` -/
structure Completion (Request : Type) where
  request : Request
  status : Int
  /-- Nothing was left as the request was taken, with those around it. -/
  clean : Bool
  /-- Nothing is left now. -/
  emptied : Bool
  deriving DecidableEq

structure TLSWrap (Request : Type) where
  /-- `hello_parser_.IsEnded()` -/
  helloEnded : Bool
  newSessionWait : Bool
  established : Bool
  shutdown : Bool
  clearIn : List UInt8
  encOut : List UInt8
  writeSize : Nat
  writeItemQueue : List Request
  pendingWriteItems : List Request
  /-- The loops of `InvokeQueued` that are running, the innermost first -/
  taken : List (Taken Request)
  /-- The number of calls of what is around -/
  calls : Nat
  /-- The plaintext that `SSL_write` has accepted -/
  accepted : List UInt8
  /-- The requests that were queued -/
  queued : List Request
  completed : List (Completion Request)
  /-- The empty writes that were passed on to the stream below -/
  passed : List Request

variable {Request : Type}

/-- The wrap as it is constructed -/
def TLSWrap.new : TLSWrap Request where
  helloEnded := true
  newSessionWait := false
  established := false
  shutdown := false
  clearIn := []
  encOut := []
  writeSize := 0
  writeItemQueue := []
  pendingWriteItems := []
  taken := []
  calls := 0
  accepted := []
  queued := []
  completed := []
  passed := []

/-- Neither plaintext nor ciphertext is left. -/
def TLSWrap.isEmptied (w : TLSWrap Request) : Bool := w.clearIn.isEmpty && w.encOut.isEmpty

def makePending (w : TLSWrap Request) : TLSWrap Request :=
  { w with
    pendingWriteItems := w.pendingWriteItems ++ w.writeItemQueue
    writeItemQueue := [] }

/-- `InvokeQueued`, up to the loop -/
def invokeQueued (w : TLSWrap Request) (status : Int) : TLSWrap Request :=
  if w.pendingWriteItems = [] then w
  else
    { w with
      taken := ⟨w.pendingWriteItems, status, w.isEmptied⟩ :: w.taken
      pendingWriteItems := [] }

/-- `wi->w_->Done(status)` in the innermost loop -/
def done (w : TLSWrap Request) : TLSWrap Request :=
  match w.taken with
  | ⟨wi :: items, status, clean⟩ :: outer =>
    { w with
      completed := w.completed ++ [⟨wi, status, clean, w.isEmptied⟩]
      taken := if items = [] then outer else ⟨items, status, clean⟩ :: outer }
  | _ => w

/-- What a call of OpenSSL does to the wrap -/
def TLSWrap.after (w : TLSWrap Request) (did : Written) : TLSWrap Request :=
  { w with
    encOut := w.encOut ++ did.records
    established := w.established || did.handshakeDone
    newSessionWait := w.newSessionWait || did.newSession }

section Calls

variable (around : Surroundings)

def sslWrite (w : TLSWrap Request) (data : List UInt8) : Int × TLSWrap Request :=
  let did := around.sslWrite w.calls data.length
  (did.written, { w.after did with
      calls := w.calls + 1
      accepted := w.accepted ++ data.take did.written.toNat })

/-- `EncOut`; where a `CHECK` fails there is nothing. -/
def encOut (w : TLSWrap Request) : Option (TLSWrap Request) :=
  if !w.helloEnded then some w
  else if w.writeSize ≠ 0 then some w
  else if w.newSessionWait then some w
  else
    let w := if w.established ∧ w.writeItemQueue ≠ [] then makePending w else w
    if w.encOut.length = 0 then
      if w.clearIn.length = 0 then some (invokeQueued w 0) else some w
    else
      let writeSize := min (around.buffered w.calls + 1) w.encOut.length
      if writeSize ≠ 0 then
        let err := around.doWrite w.calls
        let w := { w with writeSize, calls := w.calls + 1 }
        if err ≠ 0 then some (invokeQueued w err) else some w
      else none

/-- The loop of `ClearIn`, with the last `written`. As many turns are enough as there are bytes. -/
def clearInLoop : Nat → Int → TLSWrap Request → Option (Int × TLSWrap Request)
  | 0, written, w => some (written, w)
  | n + 1, written, w =>
    if 0 < w.clearIn.length then
      let data := w.clearIn.take (around.buffered w.calls + 1)
      let (written, w) := sslWrite around w data
      if written = -1 ∨ written = data.length then
        if written = -1 then some (written, w)
        else clearInLoop n written { w with clearIn := w.clearIn.drop data.length }
      else none
    else some (written, w)

def clearIn (w : TLSWrap Request) : Option (Bool × TLSWrap Request) :=
  if !w.helloEnded then some (false, w)
  else
    match clearInLoop around w.clearIn.length 0 w with
    | none => none
    | some (written, w) =>
      if w.clearIn.length = 0 then
        if 0 ≤ written then some (true, w) else none
      else some (false, w)

def encOutCb (w : TLSWrap Request) (status : Int) : Option (TLSWrap Request) :=
  if status ≠ 0 then
    if w.shutdown then some w else some (invokeQueued w status)
  else
    match clearIn around { w with encOut := w.encOut.drop w.writeSize } with
    | none => none
    | some (_, w) => encOut around { w with writeSize := 0 }

/-- `write_item_queue_.PushBack` -/
def TLSWrap.pushBack (w : TLSWrap Request) (request : Request) : TLSWrap Request :=
  { w with
    writeItemQueue := w.writeItemQueue ++ [request]
    queued := w.queued ++ [request] }

/-- `clear_in_->Write` of some buffers -/
def TLSWrap.enqueue (w : TLSWrap Request) (bufs : List (List UInt8)) : TLSWrap Request :=
  { w with clearIn := w.clearIn ++ bufs.flatten }

/-- The loop of `DoWrite`, with the buffers that are left -/
def writeLoop (w : TLSWrap Request) :
    List (List UInt8) → Option (List (List UInt8) × TLSWrap Request)
  | [] => some ([], w)
  | buf :: bufs =>
    let (written, w) := sslWrite around w buf
    if written = -1 ∨ written = buf.length then
      if written = -1 then some (buf :: bufs, w) else writeLoop w bufs
    else none

/-- `DoWrite`, behind the `ClearOut` of an empty write -/
def doWrite (w : TLSWrap Request) (request : Request) (bufs : List (List UInt8)) :
    Option (Int × TLSWrap Request) :=
  if bufs.all List.isEmpty then
    if w.encOut.length = 0 then
      some (around.doWrite w.calls,
        { w with calls := w.calls + 1, passed := w.passed ++ [request] })
    else (encOut around (w.pushBack request)).map fun w => (0, w)
  else
    match clearIn around (w.pushBack request) with
    | none => none
    | some (false, w) => some (0, w.enqueue bufs)
    | some (true, w) =>
      match writeLoop around w bufs with
      | none => none
      | some (rest, w) => (encOut around (w.enqueue rest)).map fun w => (0, w)

/-- `DoShutdown`, with what `SSL_shutdown` does -/
def doShutdown (w : TLSWrap Request) (did : Written) : Option (TLSWrap Request) :=
  encOut around { w.after did with shutdown := true }

end Calls

/-! ## Runs -/

/-- What can happen next -/
inductive Event (Request : Type) where
  | doWrite (request : Request) (bufs : List (List UInt8))
  /-- `ClearIn` in `Cycle` -/
  | clearIn
  /-- `SSL_read` in `ClearOut` -/
  | sslRead (did : Written)
  /-- `EncOut` in `Cycle`, or in `Start` -/
  | encOut
  | doShutdown (did : Written)
  /-- The stream below has written. -/
  | encOutCb (status : Int)
  /-- The next turn of the loop of `InvokeQueued` -/
  | done
  | enableHelloParser
  /-- `OnClientHelloParseEnd`, up to `Cycle` -/
  | onClientHelloParseEnd
  /-- `newSessionDone`, up to `Cycle` -/
  | newSessionDone

/-- The plaintext that an event brings -/
def Event.plaintext : Event Request → List UInt8
  | .doWrite _ bufs => bufs.flatten
  | _ => []

/-- `encOutCb` is called by the event loop, behind a write of `EncOut`. -/
def Possible (w : TLSWrap Request) : Event Request → Prop
  | .encOutCb _ => w.writeSize ≠ 0 ∧ w.taken = []
  | .done => w.taken ≠ []
  | _ => True

instance (w : TLSWrap Request) (event : Event Request) : Decidable (Possible w event) :=
  match event with
  | .encOutCb _ => inferInstanceAs (Decidable (w.writeSize ≠ 0 ∧ w.taken = []))
  | .done => inferInstanceAs (Decidable (w.taken ≠ []))
  | .doWrite _ _ | .clearIn | .sslRead _ | .encOut | .doShutdown _ | .enableHelloParser
  | .onClientHelloParseEnd | .newSessionDone => inferInstanceAs (Decidable True)

/-- There is nothing where a `CHECK` fails. -/
def handle (around : Surroundings) (w : TLSWrap Request) : Event Request → Option (TLSWrap Request)
  | .doWrite request bufs => (doWrite around w request bufs).map Prod.snd
  | .clearIn => (clearIn around w).map Prod.snd
  | .sslRead did => some (if w.helloEnded then w.after did else w)
  | .encOut => encOut around w
  | .doShutdown did => doShutdown around w did
  | .encOutCb status => encOutCb around w status
  | .done => some (done w)
  | .enableHelloParser => some { w with helloEnded := false }
  | .onClientHelloParseEnd => some { w with helloEnded := true }
  | .newSessionDone => some { w with newSessionWait := false }

/-- `SSL_write` accepts all or nothing, and what it accepts is in a record. -/
def Surroundings.AllOrNothing (around : Surroundings) : Prop :=
  ∀ call length, (around.sslWrite call length).written = -1 ∨
    (around.sslWrite call length).written = length ∧
      (0 < length → (around.sslWrite call length).records ≠ [])

/-- The stream below takes what it is to write. -/
def Surroundings.NoErrors (around : Surroundings) : Prop := ∀ call, around.doWrite call = 0

/-- What some events lead to -/
abbrev Run (around : Surroundings) : List (Event Request) → TLSWrap Request → Prop :=
  Steps (Permitted (handle around) Possible) .new

end IoJs.Tls
