import IoJs.Crypto.Memory

/-!
# `ClientHelloParser`

The first record of a TLS connection is parsed before OpenSSL sees it. `Parse` is called with
all the bytes that have arrived, again and again, until the parser is paused by a hello or has
ended.
-/

namespace IoJs.Crypto

inductive ParseState where
  | waiting
  | tlsHeader
  | paused
  | ended
  deriving DecidableEq

/-- `ClientHello`, with the bytes that its pointers and sizes give. -/
structure ClientHello where
  sessionSize : UInt8
  sessionId : Option (List UInt8)
  hasTicket : Bool
  servernameSize : UInt8
  servername : Option (List UInt8)
  ocspRequest : UInt8
  deriving DecidableEq

/-- What the parser tells its owner. -/
inductive Callback where
  | onhello (hello : ClientHello)
  | onend

structure ClientHelloParser where
  state : ParseState
  /-- is `onend_cb_` set? -/
  onend : Bool
  frameLen : Nat
  bodyOffset : Nat
  sessionSize : UInt8
  sessionId : Option Nat
  servernameSize : UInt16
  servername : Option Nat
  ocspRequest : UInt8
  tlsTicketSize : UInt16
  tlsTicket : Option Nat
  deriving DecidableEq

def kMaxTLSFrameLen : Nat := 16 * 1024 + 5
def kServernameHostname : UInt8 := 0
def kStatusRequestOCSP : UInt8 := 1
def kMinStatusRequestSize : Nat := 5
def kChangeCipherSpec : UInt8 := 20
def kAlert : UInt8 := 21
def kHandshake : UInt8 := 22
def kApplicationData : UInt8 := 23
def kClientHello : UInt8 := 1
def kServerName : Nat := 0
def kStatusRequest : Nat := 5
def kTLSSessionTicket : Nat := 35

namespace ClientHelloParser

/-! ## `Start` and `End` -/

def reset (p : ClientHelloParser) : ClientHelloParser :=
  { p with
    frameLen := 0
    bodyOffset := 0
    sessionSize := 0
    sessionId := none
    tlsTicketSize := UInt16.ofNat 0xFFFF  -- `-1`
    tlsTicket := none
    servernameSize := 0
    servername := none }

/-- The constructor -/
def new : ClientHelloParser :=
  reset
    { state := .ended
      onend := false
      frameLen := 0
      bodyOffset := 0
      sessionSize := 0
      sessionId := none
      servernameSize := 0
      servername := none
      ocspRequest := 0
      tlsTicketSize := 0
      tlsTicket := none }

def start (p : ClientHelloParser) (onend : Bool) : ClientHelloParser :=
  if p.state ≠ .ended then p else { reset p with state := .waiting, onend }

def end_ (p : ClientHelloParser) : ClientHelloParser × Option Callback :=
  if p.state = .ended then (p, none)
  else ({ p with state := .ended, onend := false }, if p.onend then some .onend else none)

/-! ## Extensions -/

/-- The loop over the names of `kServerName`; `data` is the extension. -/
def serverNames (data : Memory) (base len stop : Nat) :
    Nat → Nat → ClientHelloParser → ClientHelloParser
  | 0, _, p => p
  | fuel + 1, offset, p =>
    if offset < stop then
      if offset + 3 > len then p
      else if data (base + offset) ≠ kServernameHostname then p
      else
        let nameLen := data.word (base + offset + 1)
        let offset := offset + 3
        if offset + nameLen > len then p
        else
          serverNames data base len stop fuel (offset + nameLen)
            { p with
              servername := some (base + offset)
              servernameSize := UInt16.ofNat nameLen }
    else p

/-- `ParseExtension`, for the extension at `base` -/
def parseExtension (data : Memory) (type base len : Nat) (p : ClientHelloParser) :
    ClientHelloParser :=
  if type = kServerName then
    if len < 2 then p
    else
      let serverNamesLen := data.word base
      if serverNamesLen + 2 > len then p
      else serverNames data base len (2 + serverNamesLen) len 2 p
  else if type = kStatusRequest then
    if len < kMinStatusRequestSize then p
    else if data base ≠ kStatusRequestOCSP then p
    else { p with ocspRequest := 1 }
  else if type = kTLSSessionTicket then
    { p with tlsTicketSize := UInt16.ofNat len, tlsTicket := some (base + len) }
  else p

/-- The loop over the extensions. -/
def parseExtensions (data : Memory) (avail : Nat) :
    Nat → Nat → ClientHelloParser → Bool × ClientHelloParser
  | 0, extOff, p => (decide (extOff ≤ avail), p)
  | fuel + 1, extOff, p =>
    if extOff < avail then
      if extOff + 4 > avail then (false, p)
      else
        let extType := data.word extOff
        let extLen := data.word (extOff + 2)
        let extOff := extOff + 4
        if extOff + extLen > avail then (false, p)
        else
          parseExtensions data avail fuel (extOff + extLen)
            (parseExtension data extType extOff extLen p)
    else (decide (extOff ≤ avail), p)

/-! ## `Parse` -/

def parseTLSClientHello (data : Memory) (avail : Nat) (p : ClientHelloParser) :
    Bool × ClientHelloParser :=
  let sessionOffset := p.bodyOffset + 4 + 2 + 32
  if sessionOffset + 1 ≥ avail then (false, p)
  else
    let p := { p with sessionSize := data sessionOffset, sessionId := some (sessionOffset + 1) }
    let cipherOffset := sessionOffset + 1 + p.sessionSize.toNat
    if cipherOffset + 1 ≥ avail then (false, p)
    else
      let compOffset := cipherOffset + 2 + data.word cipherOffset
      if compOffset ≥ avail then (false, p)
      else
        let extensionOffset := compOffset + 1 + (data compOffset).toNat
        if extensionOffset > avail then (false, p)
        else if extensionOffset = avail then (true, p)
        else parseExtensions data avail avail (extensionOffset + 2) p

/-- The hello that is passed to `onhello_cb_` -/
def hello (data : Memory) (p : ClientHelloParser) : ClientHello :=
  let servernameSize := p.servernameSize.toUInt8
  { sessionSize := p.sessionSize
    sessionId := p.sessionId.map fun offset => data.bytes offset p.sessionSize.toNat
    hasTicket := p.tlsTicket.isSome && p.tlsTicketSize != 0
    servernameSize
    servername := p.servername.map fun offset => data.bytes offset servernameSize.toNat
    ocspRequest := p.ocspRequest }

def parseHeader (data : Memory) (avail : Nat) (p : ClientHelloParser) :
    ClientHelloParser × Option Callback :=
  if p.bodyOffset + p.frameLen > avail then (p, none)
  else if data (p.bodyOffset + 4) ≠ 0x03 ∨ data (p.bodyOffset + 5) < 0x01 ∨
      data (p.bodyOffset + 5) > 0x03 then
    end_ p
  else
    let (parsed, p) :=
      if data p.bodyOffset = kClientHello then
        if p.state = .tlsHeader then
          let (parsed, p) := parseTLSClientHello data avail p
          -- Check if we overflowed
          (parsed && p.sessionId.any (fun offset =>
            decide (p.sessionSize ≤ 32) && decide (offset + p.sessionSize.toNat ≤ avail)), p)
        else (false, p)
      else (true, p)
    if parsed then ({ p with state := .paused }, some (.onhello (hello data p)))
    else end_ p

def parseRecordHeader (data : Memory) (avail : Nat) (p : ClientHelloParser) :
    Bool × ClientHelloParser × Option Callback :=
  if avail < 5 then (false, p, none)
  else if data 0 = kChangeCipherSpec ∨ data 0 = kAlert ∨ data 0 = kHandshake ∨
      data 0 = kApplicationData then
    let p := { p with frameLen := data.word 3, state := .tlsHeader, bodyOffset := 5 }
    if p.frameLen ≥ kMaxTLSFrameLen then (false, end_ p) else (true, p, none)
  else (false, end_ p)

def parse (data : Memory) (avail : Nat) (p : ClientHelloParser) :
    ClientHelloParser × Option Callback :=
  match p.state with
  | .waiting =>
    match parseRecordHeader data avail p with
    | (false, result) => result
    | (true, p, _) => parseHeader data avail p
  | .tlsHeader => parseHeader data avail p
  | .paused => (p, none)
  | .ended => (p, none)

end ClientHelloParser

end IoJs.Crypto
