import IoJs.Url.Format
import Mathlib.Data.List.DropRight

/-!
# The host of a URL

The part of `Url.prototype.parse` that takes the credentials, the host and the port from the front
of what is left of a string. What is not under the model is `Engine`: the lower case of Unicode,
`punycode.toASCII`, and the text that `querystring` makes of bytes.
-/

namespace IoJs.Url

open IoJs.Stream IoJs.RegExp

/-- What the parser uses of the engine and of `punycode`, which may throw -/
structure Engine where
  toLowerCase : JSString → JSString
  toASCII : JSString → Option JSString
  toString : List UInt8 → JSString

/-- What it does with ASCII -/
def asciiEngine : Engine where
  toLowerCase := Buffer.toLowerCase
  toASCII := some
  toString bytes := bytes.map UInt8.toUInt16

def delims : JSString := js "<>\"` \r\n\t"

def unwise : JSString := js "\x7b\x7d|\\^`" ++ delims

def autoEscape : JSString := js "'" ++ unwise

def nonHostChars : JSString := js "%/?;#" ++ autoEscape

def hostEndingChars : JSString := js "/?#"

def hostnameMaxLen : Nat := 255

def period : UInt16 := unit '.'

/-- The characters of `hostnamePartPattern` -/
def isHostnameChar (c : UInt16) : Bool :=
  c == unit '+' || c == unit '_' || c == unit '-' || (unit '0' ≤ c && c ≤ unit '9') ||
    (unit 'A' ≤ c && c ≤ unit 'Z') || (unit 'a' ≤ c && c ≤ unit 'z')

/-- `hostnamePartPattern`: `/^[+a-z0-9A-Z_-]{0,63}$/` -/
def hostnamePartPattern (part : JSString) : Bool := part.length ≤ 63 && part.all isHostnameChar

/-- `hostnamePartStart`: `/^([+a-z0-9A-Z_-]{0,63})(.*)$/`, whose dot takes no line terminators -/
def hostnamePartStart (part : JSString) : Option (JSString × JSString) :=
  let bit := (part.take 63).takeWhile isHostnameChar
  if part.any isLineTerminator then none else some (bit, part.drop bit.length)

/-- The least index that the loop over `chars` finds -/
def firstOf (chars rest : JSString) : Option Nat := rest.findIdx? fun c => chars.contains c

/-- `rest.lastIndexOf(c)` -/
def lastIndexOf (rest : JSString) (c : UInt16) : Option Nat :=
  (rest.reverse.idxOf? c).map fun i => rest.length - 1 - i

def atSign (rest : JSString) : Option Nat :=
  match firstOf hostEndingChars rest with
  | none => lastIndexOf rest at_
  | some hostEnd => lastIndexOf (rest.take (hostEnd + 1)) at_

/-- `auth`, and what is behind it; none where `decodeURIComponent` throws -/
def takeAuth (rest : JSString) : Option (Option JSString × JSString) :=
  match atSign rest with
  | none => some (none, rest)
  | some i => (decodeURIComponent (rest.take i)).map fun auth => (some auth, rest.drop (i + 1))

/-- `host`, and what is behind it -/
def takeHost (rest : JSString) : JSString × JSString :=
  let hostEnd := (firstOf nonHostChars rest).getD rest.length
  (rest.take hostEnd, rest.drop hostEnd)

/-- A decimal digit -/
def isDigit (c : UInt16) : Bool := unit '0' ≤ c && c ≤ unit '9'

def portPattern (host : JSString) : Option JSString :=
  let digits := host.rtakeWhile isDigit
  if (host.take (host.length - digits.length)).getLast? = some colon then some (colon :: digits)
  else none

/-- `parseHost`: the port, and the hostname -/
def parseHost (host : JSString) : Option JSString × JSString :=
  match portPattern host with
  | none => (none, host)
  | some port =>
    (if port ≠ [colon] then some (port.drop 1) else none, host.take (host.length - port.length))

/-- `ipv6Hostname` -/
def isIPv6 (hostname : JSString) : Bool :=
  hostname.head? == some (unit '[') && hostname.getLast? == some (unit ']')

/-- May a part stay?  Beyond ASCII every character may. -/
def isHostnamePart (part : JSString) : Bool :=
  part.isEmpty || hostnamePartPattern part ||
    hostnamePartPattern (part.map fun c => if 127 < c then unit 'x' else c)

/-- The loop over `hostparts`: where one of them may not stay, `validParts` and `notHost` -/
def cutHostparts : List JSString → List JSString → Option (List JSString × List JSString)
  | _, [] => none
  | validParts, part :: notHost =>
    if isHostnamePart part then cutHostparts (validParts ++ [part]) notHost
    else
      match hostnamePartStart part with
      | none => some (validParts, notHost)
      | some bit => some (validParts ++ [bit.1], bit.2 :: notHost)

/-- The hostname that stays, and what is behind it -/
def validateHostname (hostname rest : JSString) : JSString × JSString :=
  match cutHostparts [] (hostname.splitOn period) with
  | none => (hostname, rest)
  | some (validParts, notHost) =>
    ([period].intercalate validParts,
      if notHost ≠ [] then slash :: [period].intercalate notHost ++ rest else rest)

/-- The hostname in lower case, of ASCII unless it is an address; none where `punycode` throws -/
def convertHostname (engine : Engine) (ipv6 : Bool) (hostname : JSString) : Option JSString :=
  let hostname :=
    if hostname.length > hostnameMaxLen then [] else engine.toLowerCase hostname
  if ipv6 then some hostname else engine.toASCII hostname

/-- What is done where there is a hostname: the fields, and what is left of the string -/
def authority (engine : Engine) (u : Url) (rest : JSString) : Option (Url × JSString) :=
  (takeAuth rest).bind fun (auth, rest) =>
    let (host, rest) := takeHost rest
    let (port, hostname) := parseHost host
    let ipv6 := isIPv6 hostname
    let (hostname, rest) := if ipv6 then (hostname, rest) else validateHostname hostname rest
    (convertHostname engine ipv6 hostname).map fun hostname =>
      ({ u with
          auth := auth
          host := some (hostname ++ if isSet port then colon :: orEmpty port else [])
          port := port
          hostname :=
            some (if ipv6 then (hostname.drop 1).take (hostname.length - 2) else hostname) },
        if ipv6 ∧ rest.head? ≠ some slash then slash :: rest else rest)

variable {engine : Engine} {u u' : Url} {rest rest' : JSString}

theorem isSome_hostname_authority (taken : authority engine u rest = some (u', rest')) :
    u'.hostname.isSome = true := by
  obtain ⟨⟨auth, behind⟩, -, taken⟩ := Option.bind_eq_some_iff.mp taken
  obtain ⟨hostname, -, same⟩ := Option.map_eq_some_iff.mp taken
  obtain ⟨rfl, -⟩ := Prod.mk.inj same
  rfl

end IoJs.Url
