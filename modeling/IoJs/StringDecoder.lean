import IoJs.Stream.Chunk

/-!
# `StringDecoder`

Bytes come in pieces that may be cut inside of a character. `write` decodes what is
complete and keeps the bytes of the last, incomplete character in `charBuffer`, for the
next call; `end` gives out what is left of them.

The conversion of bytes to text, `buffer.toString(encoding)`, is a parameter.
-/

namespace IoJs

open IoJs.Stream

/-- What the constructor chooses by the encoding: one of three
`detectIncompleteChar`s, or `passThroughWrite`. -/
inductive Detector where
  | utf8
  | utf16
  | base64
  | passThrough
  deriving DecidableEq

structure StringDecoder where
  encoding : String
  detector : Detector
  surrogateSize : Nat
  charBuffer : List UInt8
  charReceived : Nat
  charLength : Nat
  deriving DecidableEq

/-- `buffer.toString(encoding)` -/
abbrev ToString := String → List UInt8 → JSString

/-- `source.copy(target, start)`, where what does not fit is left out. -/
def copyInto (target : List UInt8) (start : Nat) (source : List UInt8) : List UInt8 :=
  let copied := source.take (target.length - start)
  target.take start ++ copied ++ target.drop (start + copied.length)

/-- Is the last code unit a lead surrogate? -/
def endsInLead (units : JSString) : Bool :=
  units.getLast?.any fun unit => 0xD800 ≤ unit && unit ≤ 0xDBFF

namespace StringDecoder

/-- `encoding.toLowerCase().replace(/[-_]/, '')` -/
def normalize (encoding : String) : String :=
  let lower := encoding.toList.map Char.toLower
  String.ofList (lower.eraseP fun c => c == '-' || c == '_')

/-- The constructor, for an encoding that `assertEncoding` accepts. -/
def new (encoding : String) : StringDecoder :=
  let encoding := normalize (if encoding = "" then "utf8" else encoding)
  let detector :=
    if encoding = "utf8" then Detector.utf8
    else if encoding = "ucs2" || encoding = "utf16le" then .utf16
    else if encoding = "base64" then .base64
    else .passThrough
  { encoding, detector, surrogateSize := if detector = .utf16 then 2 else 3
    charBuffer := List.replicate 6 0
    charReceived := 0
    charLength := 0 }

/-! ## `detectIncompleteChar` -/

/-- The byte length that a lead byte announces for a character that is incomplete with `i`
bytes. -/
def announced (i : Nat) (byte : UInt8) : Option Nat :=
  if i = 1 && byte >>> 5 == 0x06 then some 2
  else if i ≤ 2 && byte >>> 4 == 0x0E then some 3
  else if i ≤ 3 && byte >>> 3 == 0x1E then some 4
  else none

/-- The loop of the UTF-8 `detectIncompleteChar` from `i` on: the announced length if there
is one, and the `i` it stops at. -/
def detectFrom (buffer : List UInt8) : Nat → Option Nat × Nat
  | 0 => (none, 0)
  | i + 1 =>
    match (buffer[buffer.length - (i + 1)]?).bind (announced (i + 1)) with
    | some length => (some length, i + 1)
    | none => detectFrom buffer i

/-- `detectIncompleteChar`: the new `charLength`, unless it returns false, and the new
`charReceived`. -/
def detectIncompleteChar (d : StringDecoder) (buffer : List UInt8) : Option Nat × Nat :=
  match d.detector with
  | .utf16 => (some (if buffer.length % 2 = 0 then 0 else 2), buffer.length % 2)
  | .base64 => (some (if buffer.length % 3 = 0 then 0 else 3), buffer.length % 3)
  | _ => detectFrom buffer (min 3 buffer.length)

/-! ## `write` and `end` -/

/-- Where the loop of `write` stops: it returns, or it goes on with the rest of the buffer,
the character that was split, and the new `charBuffer`. -/
inductive Split where
  | returns (d : StringDecoder) (result : JSString)
  | goesOn (buffer : List UInt8) (charStr : JSString) (charBuffer : List UInt8)

/-- The loop of `write` that completes the character the last call ended with. It goes
round again only for a lead surrogate, and then with fewer bytes. -/
def splitChar (toString : ToString) (d : StringDecoder) :
    Nat → List UInt8 → List UInt8 → Nat → Nat → Split
  | 0, _, _, _, _ => .returns d []
  | fuel + 1, buffer, charBuffer, charLength, charReceived =>
    let available := min (charLength - charReceived) buffer.length
    let charBuffer := copyInto charBuffer charReceived (buffer.take available)
    let charReceived := charReceived + available
    if charReceived < charLength then
      .returns { d with charBuffer, charLength, charReceived } []
    else
      let buffer := buffer.drop available
      let charStr := toString d.encoding (charBuffer.take charLength)
      if endsInLead charStr then
        splitChar toString d fuel buffer charBuffer (charLength + d.surrogateSize) charReceived
      else if buffer = [] then
        .returns { d with charBuffer, charLength := 0, charReceived := 0 } charStr
      else .goesOn buffer charStr charBuffer

/-- `write` after its loop. -/
def writeRest (toString : ToString) (d : StringDecoder) (buffer : List UInt8)
    (charStr : JSString) (charBuffer : List UInt8) : StringDecoder × JSString :=
  let (announced, charReceived) := d.detectIncompleteChar buffer
  let charLength := announced.getD 0
  let kept := if charLength = 0 then 0 else charReceived
  let charBuffer := copyInto charBuffer 0 (buffer.drop (buffer.length - kept))
  let charStr := charStr ++ toString d.encoding (buffer.take (buffer.length - kept))
  if endsInLead charStr then
    let charBuffer := copyInto charBuffer d.surrogateSize (charBuffer.take d.surrogateSize)
    let charBuffer := copyInto charBuffer 0 (buffer.take d.surrogateSize)
    ({ d with
        charBuffer
        charLength := charLength + d.surrogateSize
        charReceived := charReceived + d.surrogateSize },
      charStr.dropLast)
  else ({ d with charBuffer, charLength, charReceived }, charStr)

/-- `StringDecoder.prototype.write` and `passThroughWrite` -/
def write (toString : ToString) (d : StringDecoder) (buffer : List UInt8) :
    StringDecoder × JSString :=
  if d.detector = .passThrough then (d, toString d.encoding buffer)
  else if d.charLength = 0 then writeRest toString d buffer [] d.charBuffer
  else
    match splitChar toString d (buffer.length + 2) buffer d.charBuffer d.charLength
        d.charReceived with
    | .returns d result => (d, result)
    | .goesOn buffer charStr charBuffer => writeRest toString d buffer charStr charBuffer

/-- `StringDecoder.prototype.end`, without an argument -/
def end_ (toString : ToString) (d : StringDecoder) : JSString :=
  if d.charReceived = 0 then [] else toString d.encoding (d.charBuffer.take d.charReceived)

end StringDecoder

end IoJs
