import IoJs.RegExp

/-!
# `tls.checkServerIdentity`

The names of a certificate are rewritten into regular expressions, and the host is tested against
them: the DNS and URI altnames, or the common names where there are none of these.
-/

namespace IoJs.Tls

open IoJs.Stream IoJs.RegExp IoJs.Library.RegExp

/-- What `checkServerIdentity` calls -/
structure Environment where
  table : CaseTable
  engine : Engine table
  /-- `net.isIP(input)`: 4, 6 or 0 -/
  isIP : JSString → Nat
  /-- `url.parse(input).hostname`, which may be `null` -/
  hostname : JSString → Option JSString

/-- `cert.subject.CN` -/
inductive CommonNames where
  | undefined
  | one (name : JSString)
  | array (names : List JSString)
  deriving DecidableEq

/-- What `checkServerIdentity` reads of a certificate -/
structure Certificate where
  subjectaltname : Option JSString
  commonNames : CommonNames
  deriving DecidableEq

/-- A value that is passed as a name -/
inductive Name where
  | string (text : JSString)
  | null
  | undefined
  deriving DecidableEq

/-- `String(name)` -/
def Name.text : Name → JSString
  | .string text => text
  | .null => js "null"
  | .undefined => js "undefined"

/-! ## The literal expressions -/

/-- A test of an expression without flags -/
def test (pattern : Pattern Atom) (input : JSString) : Bool := pattern.test (Atom.sat id) input

def endsInDot : Pattern Atom := [[.one (.char (unit '.')), .stop]]

def hasStar : Pattern Atom := [[.one (.char (unit '*'))]]

def starLater : Pattern Atom :=
  [[.one (.set [(unit '.', unit '.'), (unit '*', unit '*')]), .star .any, .one (.char (unit '*'))]]

def dotsAfterStar : Pattern Atom :=
  [[.one (.char (unit '*')), .star .any, .one (.char (unit '.')), .plus .any,
    .one (.char (unit '.')), .plus .any]]

def never : Pattern Atom := [[.stop, .one .any]]

example : parse (js "\\.$") = some endsInDot := by decide
example : parse (js "[\\.\\*].*\\*") = some starLater := by decide
example : parse (js "\\*.*\\..+\\..+") = some dotsAfterStar := by decide

/-- `[a-z0-9\\-_\.]`: from the backslash to the underscore is one range. -/
def subClass : List (UInt16 × UInt16) :=
  [(unit 'a', unit 'z'), (unit '0', unit '9'), (unit '\\', unit '_'), (unit '.', unit '.')]

def specialClass : List (UInt16 × UInt16) := (js ".,-\\^$+?*[]():!|\x7b\x7d").map fun ch => (ch, ch)

example : parse (js "[a-z0-9\\\\-_\\.]") = some [[.one (.set subClass)]] := by decide
example : parse (js "[\\.,\\-\\\\\\^\\$+?*\\[\\]\\(\\):!\\|\x7b\x7d]") =
      some [[.one (.set specialClass)]] := by
  decide

/-! ## `regexpify` -/

/-- `if (!/\.$/.test(host)) host += '.'` -/
def canonical (host : JSString) : JSString :=
  if test endsInDot host then host else host ++ [unit '.']

/-- The names that are never matched -/
def rejects (host : JSString) (wildcards : Bool) : Bool :=
  (!wildcards && test hasStar host) || test starLater host ||
    (test hasStar host && !test dotsAfterStar host)

/-- Is a star before `sub` the wildcard `\*([a-z0-9\\-_\.])`? -/
def isSub (sub : UInt16) : Bool := Atom.sat id (.set subClass) sub

/-- A character that is not part of a wildcard -/
def escape (all : UInt16) : JSString :=
  if Atom.sat id (.set specialClass) all then [unit '\\', all] else [all]

/-- `host.replace(...)` -/
def replace : JSString → JSString
  | [] => []
  | [all] => escape all
  | all :: sub :: rest =>
    if all = unit '*' ∧ isSub sub = true then
      js "[a-z0-9\\-_]*" ++ (if sub = unit '-' then js "\\-" else [sub]) ++ replace rest
    else escape all ++ replace (sub :: rest)

/-- `regexpify`; there is no expression where `new RegExp` throws. -/
def regexpify (env : Environment) (host : Name) (wildcards : Bool) : Option (JSString → Bool) :=
  let host := canonical host.text
  if rejects host wildcards then some (test never)
  else env.engine.newRegExp (js "^" ++ replace host ++ js "$")

/-! ## `checkServerIdentity` -/

/-- `split(/, /g)` -/
def split : JSString → List JSString
  | [] => [[]]
  | [c] => [[c]]
  | c :: d :: rest =>
    if c = unit ',' ∧ d = unit ' ' then [] :: split rest
    else (split (d :: rest)).modifyHead (c :: ·)

/-- `(DNS|IP Address|URI)` -/
inductive AltnameType where
  | dns
  | ipAddress
  | uri
  deriving DecidableEq

def AltnameType.text : AltnameType → JSString
  | .dns => js "DNS"
  | .ipAddress => js "IP Address"
  | .uri => js "URI"

/-- The rest of a string after what it starts with -/
def rest? : JSString → JSString → Option JSString
  | [], input => some input
  | _ :: _, [] => none
  | c :: start, d :: input => if c = d then rest? start input else none

/-- `altname.match(/^(DNS|IP Address|URI):(.*)$/)` -/
def option (altname : JSString) : Option (AltnameType × JSString) :=
  [AltnameType.dns, .ipAddress, .uri].findSome? fun type =>
    match rest? (type.text ++ js ":") altname with
    | some name => if name.any isLineTerminator then none else some (type, name)
    | none => none

def Certificate.altnames (cert : Certificate) : List (AltnameType × JSString) :=
  match cert.subjectaltname with
  | none => []
  | some [] => []
  | some (c :: rest) => (split (c :: rest)).filterMap option

/-- The altnames of one type, from the first to the last -/
def Certificate.altnamesOf (cert : Certificate) (type : AltnameType) : List JSString :=
  cert.altnames.filterMap fun altname => if altname.1 = type then some altname.2 else none

/-- A value that is passed where a string may be missing -/
def Name.ofHostname : Option JSString → Name
  | some text => .string text
  | none => .null

def Certificate.uriNames (env : Environment) (cert : Certificate) : List Name :=
  (cert.altnamesOf .uri).map fun uri => .ofHostname (env.hostname uri)

/-- The common names that are passed to `regexpify` -/
def CommonNames.list : CommonNames → List Name
  | .undefined => [.undefined]
  | .one name => [.string name]
  | .array names => names.map .string

/-- The names that the host is tested against; the flag allows wildcards. -/
def Certificate.names (env : Environment) (cert : Certificate) : List (Name × Bool) :=
  let dnsNames := (cert.altnamesOf .dns).map (fun name => (Name.string name, true)) ++
    (cert.uriNames env).map fun name => (name, false)
  if dnsNames.length > 0 then dnsNames else cert.commonNames.list.map fun name => (name, true)

/-- The regular expressions of names, in their order -/
def regexps (env : Environment) (names : List (Name × Bool)) : Option (List (JSString → Bool)) :=
  names.mapM fun name => regexpify env name.1 name.2

/-- `String(cert.subject.CN)` -/
def CommonNames.text : CommonNames → JSString
  | .undefined => js "undefined"
  | .one name => name
  | .array names => (js ",").intercalate names

/-- `JSON.stringify` of one character of a string -/
def jsonUnit (ch : UInt16) : JSString :=
  if ch = unit '"' ∨ ch = unit '\\' then [unit '\\', ch]
  else if ch = 0x08 then js "\\b"
  else if ch = 0x0C then js "\\f"
  else if ch = 0x0A then js "\\n"
  else if ch = 0x0D then js "\\r"
  else if ch = 0x09 then js "\\t"
  else if ch < 0x20 then js "\\u00" ++ [hex (ch / 16), hex (ch % 16)]
  else [ch]
where
  hex (digit : UInt16) : UInt16 := if digit < 10 then unit '0' + digit else unit 'a' + (digit - 10)

def jsonString (text : JSString) : JSString := js "\"" ++ text.flatMap jsonUnit ++ js "\""

/-- The error that is returned -/
structure IdentityError where
  message : JSString
  reason : JSString
  host : JSString
  cert : Certificate
  deriving DecidableEq

def identityError (reason host : JSString) (cert : Certificate) : IdentityError where
  message := js "Hostname/IP doesn't match certificate's altnames: " ++ jsonString reason
  reason
  host
  cert

/-- How a call ends -/
inductive Outcome where
  | thrown
  | returned (error : Option IdentityError)
  deriving DecidableEq

/-- The reason that is given for a host that is an IP address -/
def ipReason (host : JSString) (ips : List JSString) : JSString :=
  js "IP: " ++ host ++ js " is not in the cert's list: " ++ (js ", ").intercalate ips

/-- The reason that is given for another host -/
def hostReason (host : JSString) (cert : Certificate) : JSString :=
  match cert.subjectaltname with
  | some (c :: rest) => js "Host: " ++ host ++ js " is not in the cert's altnames: " ++ (c :: rest)
  | _ => js "Host: " ++ host ++ js " is not cert's CN: " ++ cert.commonNames.text

def checkServerIdentity (env : Environment) (host : JSString) (cert : Certificate) : Outcome :=
  if env.isIP host ≠ 0 then
    let ips := cert.altnamesOf .ipAddress
    if ips.any (· == host) then .returned none
    else .returned (some (identityError (ipReason host ips) host cert))
  else
    let host := canonical host
    match regexps env (cert.names env) with
    | none => .thrown
    | some dnsNames =>
      if dnsNames.any fun re => re host then .returned none
      else .returned (some (identityError (hostReason host cert) host cert))

end IoJs.Tls
