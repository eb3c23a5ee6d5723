import IoJs.Crypto.ClientHelloParser

/-!
# `ClientHello` records

What a client sends: the bytes of a hello in a record of its own. The lengths that go before
the parts are fields of the structures, so that every value has an encoding.
-/

namespace IoJs.Crypto

/-- Two bytes, the higher first. -/
def word (n : Nat) : List UInt8 := [UInt8.ofNat (n / 256), UInt8.ofNat n]

@[simp]
theorem length_word (n : Nat) : (word n).length = 2 := rfl

/-- An extension, of whatever type. -/
structure Extension where
  type : Nat
  body : List UInt8
  type_lt : type < 2 ^ 16
  length_lt : body.length < 2 ^ 16

/-- The bytes of an extension. -/
def Extension.encode (e : Extension) : List UInt8 := word e.type ++ word e.body.length ++ e.body

/-- The bytes of some extensions. -/
def encodeAll (extensions : List Extension) : List UInt8 := extensions.flatMap Extension.encode

theorem Extension.length_encode (e : Extension) : e.encode.length = 4 + e.body.length := by
  simp [encode]
  omega

/-- An entry of a list of server names -/
structure ServerName where
  type : UInt8
  name : List UInt8

def ServerName.encode (entry : ServerName) : List UInt8 :=
  entry.type :: word entry.name.length ++ entry.name

/-- What an extension asks for. -/
inductive Request where
  | serverName (entries : List ServerName)
  | statusRequest (type : UInt8) (request : List UInt8)
  | sessionTicket (ticket : List UInt8)
  | other (type : Nat) (body : List UInt8)

namespace Request

def type : Request → Nat
  | serverName _ => kServerName
  | statusRequest _ _ => kStatusRequest
  | sessionTicket _ => kTLSSessionTicket
  | other type _ => type

def body : Request → List UInt8
  | serverName entries =>
    word (entries.flatMap ServerName.encode).length ++ entries.flatMap ServerName.encode
  | statusRequest type request => type :: request
  | sessionTicket ticket => ticket
  | other _ body => body

/-- The request is what its type says, and its lengths fit. -/
def WellFormed (r : Request) : Prop :=
  r.body.length < 2 ^ 16 ∧ match r with
    -- an OCSP request has two lists, with their lengths
    | statusRequest type request => type = kStatusRequestOCSP → 4 ≤ request.length
    | other type _ =>
      type < 2 ^ 16 ∧ type ≠ kServerName ∧ type ≠ kStatusRequest ∧ type ≠ kTLSSessionTicket
    | _ => True

variable {r : Request}

section

variable (wellFormed : r.WellFormed)
include wellFormed

theorem WellFormed.type_lt : r.type < 2 ^ 16 := by
  cases r with
  | serverName => exact (by decide : kServerName < 2 ^ 16)
  | statusRequest => exact (by decide : kStatusRequest < 2 ^ 16)
  | sessionTicket => exact (by decide : kTLSSessionTicket < 2 ^ 16)
  | other => exact wellFormed.2.1

theorem WellFormed.serverName_of_type
    (type : r.type = kServerName) : ∃ entries, r = serverName entries := by
  cases r with
  | serverName entries => exact ⟨entries, rfl⟩
  | statusRequest _ _ => cases type
  | sessionTicket _ => cases type
  | other => exact absurd type wellFormed.2.2.1

theorem WellFormed.statusRequest_of_type
    (type : r.type = kStatusRequest) : ∃ kind request, r = statusRequest kind request := by
  cases r with
  | serverName _ => cases type
  | statusRequest kind request => exact ⟨kind, request, rfl⟩
  | sessionTicket _ => cases type
  | other => exact absurd type wellFormed.2.2.2.1

theorem WellFormed.sessionTicket_of_type
    (type : r.type = kTLSSessionTicket) : ∃ ticket, r = sessionTicket ticket := by
  cases r with
  | serverName _ => cases type
  | statusRequest _ _ => cases type
  | sessionTicket ticket => exact ⟨ticket, rfl⟩
  | other => exact absurd type wellFormed.2.2.2.2

end

/-- The last host name, if the request is for a server name. -/
def hostName : Request → Option (List UInt8)
  | serverName entries =>
    ((entries.filter fun entry => entry.type = kServernameHostname).map ServerName.name).getLast?
  | _ => none

def hasTicket : Request → Bool
  | sessionTicket ticket => ticket ≠ []
  | _ => false

def carriesOCSP : Request → Bool
  | statusRequest type _ => type = kStatusRequestOCSP
  | _ => false

end Request

structure Hello where
  recordVersion : UInt8
  version : UInt8
  random : List UInt8
  sessionId : List UInt8
  ciphers : List UInt8
  compression : List UInt8
  extensions : Option (List Request)
  /-- TLS 1.0, 1.1 or 1.2 -/
  known : 1 ≤ version ∧ version ≤ 3
  random_length : random.length = 32
  session_length : sessionId.length ≤ 32
  ciphers_length : ciphers.length < 2 ^ 16
  compression_length : compression.length < 2 ^ 8
  requests : ∀ r ∈ extensions.getD [], r.WellFormed
  /-- no two extensions have the same type -/
  distinct : ((extensions.getD []).map Request.type).Nodup

namespace Hello

variable (h : Hello)

/-- The extensions as they are sent. -/
def sent : List Extension :=
  (h.extensions.getD []).attach.map fun r =>
    { type := r.1.type
      body := r.1.body
      type_lt := (h.requests r.1 r.2).type_lt
      length_lt := (h.requests r.1 r.2).1 }

/-- The hello up to the extensions. -/
def fixed : List UInt8 :=
  [3, h.version] ++ h.random ++ UInt8.ofNat h.sessionId.length :: h.sessionId ++
    word h.ciphers.length ++ h.ciphers ++
    UInt8.ofNat h.compression.length :: h.compression

/-- The body of the hello. -/
def body : List UInt8 :=
  match h.extensions with
  | none => h.fixed
  | some _ => h.fixed ++ word (encodeAll h.sent).length ++ encodeAll h.sent

/-- The message, with its type and its length. -/
def message : List UInt8 :=
  [kClientHello, UInt8.ofNat (h.body.length / 2 ^ 16)] ++ word h.body.length ++ h.body

/-- The record with the message. -/
def record : List UInt8 := [kHandshake, 3, h.recordVersion] ++ word h.message.length ++ h.message

/-- The last host name of the server names. -/
def hostName : Option (List UInt8) := (h.extensions.getD []).findSome? Request.hostName

/-- A session ticket that is not empty is sent. -/
def hasTicket : Bool := (h.extensions.getD []).any Request.hasTicket

/-- An OCSP request is sent. -/
def carriesOCSP : Bool := (h.extensions.getD []).any Request.carriesOCSP

end Hello

/-- A hello that fits into a record of its own. -/
structure HelloRecord extends Hello where
  extensions_length : (encodeAll toHello.sent).length < 2 ^ 16
  message_length : toHello.message.length ≤ 2 ^ 14

end IoJs.Crypto
