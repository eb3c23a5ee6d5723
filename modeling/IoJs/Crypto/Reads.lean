import IoJs.Crypto.ClientHelloParser
import IoJs.Library.Reading

/-!
# What `Parse` reads

`Parse` is given a pointer and the number of bytes that have arrived. Here it is a program that
reads: each `data[i]` of the code is a read of the cell `i`, in the order of the code, where an
operand that is not evaluated is not read. A byte that an expression names twice is read once.
-/

namespace IoJs.Crypto

open Library Library.Reading

namespace Reads

/-- Which callback is called. The bytes of a hello are read by the one who is called. -/
inductive Notice where
  | onhello
  | onend

/-- The parser afterwards, and the callback -/
abbrev Outcome := ClientHelloParser × Option Notice

/-- `(data[i] << 8) + data[i + 1]` -/
def word (i : ℕ) : Reading UInt8 ℕ := do
  let high ← cell i
  let low ← cell (i + 1)
  return high.toNat * 256 + low.toNat

/-- `return End()` -/
def end_ (p : ClientHelloParser) : Outcome := (p.end_.1, p.end_.2.map fun _ => .onend)

/-- The loop over the names of `kServerName`; the extension is at `base`. -/
def serverNames (base len stop offset : ℕ) (p : ClientHelloParser) :
    Reading UInt8 ClientHelloParser :=
  if offset < stop then
    if offset + 3 > len then return p
    else do
      let nameType ← cell (base + offset)
      if nameType ≠ kServernameHostname then return p
      else
        let nameLen ← word (base + offset + 1)
        if offset + 3 + nameLen > len then return p
        else
          serverNames base len stop (offset + 3 + nameLen)
            { p with
              servername := some (base + (offset + 3))
              servernameSize := UInt16.ofNat nameLen }
  else return p
termination_by stop - offset

/-- `ParseExtension`, for the extension at `base` -/
def parseExtension (type base len : ℕ) (p : ClientHelloParser) : Reading UInt8 ClientHelloParser :=
  if type = kServerName then
    if len < 2 then return p
    else do
      let serverNamesLen ← word base
      if serverNamesLen + 2 > len then return p
      else serverNames base len (2 + serverNamesLen) 2 p
  else if type = kStatusRequest then
    if len < kMinStatusRequestSize then return p
    else do
      let statusType ← cell base
      if statusType ≠ kStatusRequestOCSP then return p
      else return { p with ocspRequest := 1 }
  else if type = kTLSSessionTicket then
    return { p with tlsTicketSize := UInt16.ofNat len, tlsTicket := some (base + len) }
  else return p

/-- The loop over the extensions -/
def parseExtensions (avail extOff : ℕ) (p : ClientHelloParser) :
    Reading UInt8 (Bool × ClientHelloParser) :=
  if extOff < avail then
    if extOff + 4 > avail then return (false, p)
    else do
      let extType ← word extOff
      let extLen ← word (extOff + 2)
      if extOff + 4 + extLen > avail then return (false, p)
      else
        let p ← parseExtension extType (extOff + 4) extLen p
        parseExtensions avail (extOff + 4 + extLen) p
  else return (decide (extOff ≤ avail), p)
termination_by avail - extOff

def parseTLSClientHello (avail : ℕ) (p : ClientHelloParser) :
    Reading UInt8 (Bool × ClientHelloParser) :=
  let sessionOffset := p.bodyOffset + 4 + 2 + 32
  if sessionOffset + 1 ≥ avail then return (false, p)
  else do
    let sessionSize ← cell sessionOffset
    let p := { p with sessionSize, sessionId := some (sessionOffset + 1) }
    let cipherOffset := sessionOffset + 1 + sessionSize.toNat
    if cipherOffset + 1 ≥ avail then return (false, p)
    else
      let cipherLen ← word cipherOffset
      let compOffset := cipherOffset + 2 + cipherLen
      if compOffset ≥ avail then return (false, p)
      else
        let compLen ← cell compOffset
        let extensionOffset := compOffset + 1 + compLen.toNat
        if extensionOffset > avail then return (false, p)
        else if extensionOffset = avail then return (true, p)
        else parseExtensions avail (extensionOffset + 2) p

/-- The check for an overflow -/
def sessionFits (avail : ℕ) (p : ClientHelloParser) : Bool :=
  p.sessionId.any fun offset =>
    decide (p.sessionSize ≤ 32) && decide (offset + p.sessionSize.toNat ≤ avail)

def parseHeader (avail : ℕ) (p : ClientHelloParser) : Reading UInt8 Outcome :=
  if p.bodyOffset + p.frameLen > avail then return (p, none)
  else do
    let major ← cell (p.bodyOffset + 4)
    if major ≠ 0x03 then return end_ p
    else
      let minor ← cell (p.bodyOffset + 5)
      if minor < 0x01 ∨ minor > 0x03 then return end_ p
      else
        let kind ← cell p.bodyOffset
        if kind = kClientHello then
          if p.state = .tlsHeader then
            let (parsed, p) ← parseTLSClientHello avail p
            if parsed && sessionFits avail p then
              return ({ p with state := .paused }, some .onhello)
            else return end_ p
          else return end_ p
        else return ({ p with state := .paused }, some .onhello)

def parseRecordHeader (avail : ℕ) (p : ClientHelloParser) : Reading UInt8 (Bool × Outcome) :=
  if avail < 5 then return (false, p, none)
  else do
    let kind ← cell 0
    if kind = kChangeCipherSpec ∨ kind = kAlert ∨ kind = kHandshake ∨ kind = kApplicationData then
      let frameLen ← word 3
      let p := { p with frameLen, state := .tlsHeader, bodyOffset := 5 }
      if frameLen ≥ kMaxTLSFrameLen then return (false, end_ p)
      else return (true, p, none)
    else return (false, end_ p)

def parse (avail : ℕ) (p : ClientHelloParser) : Reading UInt8 Outcome :=
  match p.state with
  | .waiting => do
      let (parsed, result) ← parseRecordHeader avail p
      if parsed then parseHeader avail result.1 else return result
  | .tlsHeader => parseHeader avail p
  | .paused => return (p, none)
  | .ended => return (p, none)

/-! ## The same parser -/

/-- The callback with the hello that the owner reads -/
def Notice.callback (data : Memory) (p : ClientHelloParser) : Notice → Callback
  | .onhello => .onhello (ClientHelloParser.hello data p)
  | .onend => .onend

/-- What `Parse` has done, as the owner sees it -/
def Outcome.seen (data : Memory) (outcome : Outcome) : ClientHelloParser × Option Callback :=
  (outcome.1, outcome.2.map (Notice.callback data outcome.1))

variable {data : Memory} {avail base len stop offset extOff : ℕ} {p : ClientHelloParser}

@[simp]
theorem run_word (i : ℕ) : run data (word i) = data.word i := rfl

@[simp]
theorem reads_word (i : ℕ) : reads data (word i) = [i, i + 1] := rfl

@[simp]
theorem seen_end (p : ClientHelloParser) : (end_ p).seen data = p.end_ := by
  by_cases ended : p.state = .ended
  · simp [end_, Outcome.seen, ClientHelloParser.end_, ended]
  cases onend : p.onend <;>
    simp [end_, Outcome.seen, ClientHelloParser.end_, ended, onend, Notice.callback]

/-- Read by read, the loop over the names does what it does on the whole memory. -/
theorem run_serverNames (fuel : ℕ) (enough : stop ≤ offset + fuel) :
    run data (serverNames base len stop offset p) =
      ClientHelloParser.serverNames data base len stop fuel offset p := by
  induction fuel generalizing offset p with
  | zero =>
    rw [serverNames, if_neg (by omega), ClientHelloParser.serverNames]
    rfl
  | succ fuel ih =>
    rw [serverNames, ClientHelloParser.serverNames]
    split
    · split
      · rfl
      rw [run_bind, run_cell]
      split
      · rfl
      rw [run_bind, run_word]
      dsimp only
      split
      · rfl
      · exact ih (by omega)
    · rfl

/-- The same of one extension -/
theorem run_parseExtension (type : ℕ) : run data (parseExtension type base len p) =
    ClientHelloParser.parseExtension data type base len p := by
  unfold parseExtension ClientHelloParser.parseExtension
  split
  · split
    · rfl
    rw [run_bind, run_word]
    dsimp only
    split
    · rfl
    · exact run_serverNames len (by omega)
  split
  · split
    · rfl
    rw [run_bind, run_cell]
    split <;> rfl
  · split <;> rfl

/-- The same of all extensions, with enough fuel -/
theorem run_parseExtensions (fuel : ℕ) (enough : avail ≤ extOff + fuel) :
    run data (parseExtensions avail extOff p) =
      ClientHelloParser.parseExtensions data avail fuel extOff p := by
  induction fuel generalizing extOff p with
  | zero =>
    rw [parseExtensions, if_neg (by omega), ClientHelloParser.parseExtensions]
    rfl
  | succ fuel ih =>
    rw [parseExtensions, ClientHelloParser.parseExtensions]
    split
    · split
      · rfl
      rw [run_bind, run_word, run_bind, run_word]
      dsimp only
      split
      · rfl
      rw [run_bind, run_parseExtension]
      exact ih (by omega)
    · rfl

/-- The same of the hello -/
theorem run_parseTLSClientHello : run data (parseTLSClientHello avail p) =
    ClientHelloParser.parseTLSClientHello data avail p := by
  unfold parseTLSClientHello ClientHelloParser.parseTLSClientHello
  dsimp only
  split
  · rfl
  rw [run_bind, run_cell]
  split
  · rfl
  rw [run_bind, run_word]
  split
  · rfl
  rw [run_bind, run_cell]
  split
  · rfl
  split
  · rfl
  · exact run_parseExtensions avail (by omega)

@[simp]
theorem run_end (p : ClientHelloParser) :
    (run data (return end_ p : Reading UInt8 Outcome)).seen data = p.end_ :=
  seen_end p

/-- The same of a frame, up to what the parser makes of it -/
theorem run_parseHeader :
    (run data (parseHeader avail p)).seen data = ClientHelloParser.parseHeader data avail p := by
  unfold parseHeader ClientHelloParser.parseHeader
  split
  · rfl
  rw [run_bind, run_cell]
  by_cases major : data (p.bodyOffset + 4) = 0x03
  · rw [if_neg (not_not.mpr major), run_bind, run_cell]
    by_cases minor : data (p.bodyOffset + 5) < 0x01 ∨ data (p.bodyOffset + 5) > 0x03
    · rw [if_pos minor, if_pos (Or.inr minor), run_end]
    have known : ¬(data (p.bodyOffset + 4) ≠ 0x03 ∨ data (p.bodyOffset + 5) < 0x01 ∨
        data (p.bodyOffset + 5) > 0x03) := by
      rintro (other | other)
      · exact other major
      · exact minor other
    rw [if_neg minor, if_neg known, run_bind, run_cell]
    by_cases hello : data p.bodyOffset = kClientHello
    · by_cases header : p.state = .tlsHeader
      · simp only [if_pos hello, if_pos header, run_bind, run_parseTLSClientHello]
        by_cases fits : ((ClientHelloParser.parseTLSClientHello data avail p).1 &&
          sessionFits avail (ClientHelloParser.parseTLSClientHello data avail p).2) = true
        · rw [if_pos fits]
          exact (if_pos fits).symm
        rw [if_neg fits, run_end]
        exact (if_neg fits).symm
      simp only [if_pos hello, if_neg header]
      exact run_end p
    simp only [if_neg hello, if_true]
    rfl
  · rw [if_pos major, if_pos (Or.inl major), run_end]

/-- The same of the head of a record -/
theorem run_parseRecordHeader :
    ((run data (parseRecordHeader avail p)).1, (run data (parseRecordHeader avail p)).2.seen data) =
      ClientHelloParser.parseRecordHeader data avail p := by
  unfold parseRecordHeader ClientHelloParser.parseRecordHeader
  split
  · rfl
  rw [run_bind, run_cell]
  split
  · rw [run_bind, run_word]
    dsimp only
    split
    · exact congrArg (Prod.mk false) (seen_end _)
    · rfl
  · exact congrArg (Prod.mk false) (seen_end _)

theorem run_parse :
    (run data (parse avail p)).seen data = ClientHelloParser.parse data avail p := by
  unfold parse ClientHelloParser.parse
  cases p.state with
  | waiting =>
    simp only [run_bind, ← run_parseRecordHeader]
    obtain ⟨parsed, result⟩ := run data (parseRecordHeader avail p)
    cases parsed with
    | true => exact run_parseHeader
    | false => rfl
  | tlsHeader => exact run_parseHeader
  | paused => rfl
  | ended => rfl

end Reads

end IoJs.Crypto
