import IoJs.Url.Credentials

/-!
# Writing a URL

`Url` has what `parse` finds in a string, and `format` puts it together again. A field that is not
set is none, and so is `undefined`; what a test of the source takes for set is neither none nor
empty (`isSet`).
-/

namespace IoJs

open IoJs.Stream IoJs.RegExp IoJs.QueryString List

/-- `query`: a text, or an object where it has been parsed -/
inductive Url.Query where
  | text (query : JSString)
  | object (query : Obj)
  deriving DecidableEq

/-- `Url`; `slashes` is `null` or `true`. -/
structure Url where
  protocol : Option JSString := none
  slashes : Bool := false
  auth : Option JSString := none
  host : Option JSString := none
  port : Option JSString := none
  hostname : Option JSString := none
  hash : Option JSString := none
  search : Option JSString := none
  query : Option Url.Query := none
  pathname : Option JSString := none
  path : Option JSString := none
  href : Option JSString := none
  deriving DecidableEq

namespace Url

/-- `field || ''` -/
def orEmpty (field : Option JSString) : JSString := field.getD []

/-- What `if (field)` asks for -/
def isSet (field : Option JSString) : Bool := !(orEmpty field).isEmpty

@[simp] theorem orEmpty_none : orEmpty none = [] := rfl

@[simp] theorem orEmpty_some (text : JSString) : orEmpty (some text) = text := rfl

@[simp] theorem isSet_none : isSet none = false := rfl

@[simp] theorem isSet_nil : isSet (some []) = false := rfl

@[simp] theorem isSet_cons (c : UInt16) (rest : JSString) : isSet (some (c :: rest)) = true := rfl

/-! ## Tables -/

def slash : UInt16 := unit '/'

def questionMark : UInt16 := unit '?'

def numberSign : UInt16 := unit '#'

def at_ : UInt16 := unit '@'

def colon : UInt16 := unit ':'

def unsafeProtocol (proto : JSString) : Bool := [js "javascript", js "javascript:"].contains proto

def hostlessProtocol (proto : JSString) : Bool := [js "javascript", js "javascript:"].contains proto

def slashedProtocol (proto : JSString) : Bool :=
  [js "http", js "https", js "ftp", js "gopher", js "file", js "http:", js "https:", js "ftp:",
    js "gopher:", js "file:"].contains proto

/-! ## The parts -/

def writeAuth (auth : Option JSString) : Option JSString :=
  if isSet auth then (credentials (orEmpty auth)).map (· ++ [at_]) else some []

/-- `host`, as it is written behind `auth`; none is `false`. -/
def writeHost (u : Url) (auth : JSString) : Option JSString :=
  if isSet u.host then some (auth ++ orEmpty u.host)
  else if isSet u.hostname then
    some (auth ++
      (if (orEmpty u.hostname).contains colon then unit '[' :: orEmpty u.hostname ++ [unit ']']
        else orEmpty u.hostname) ++
      if isSet u.port then colon :: orEmpty u.port else [])
  else none

/-- `querystring.stringify(this.query)`, of an object that has keys -/
def writeQuery (u : Url) : JSString :=
  match u.query with
  | some (.object query) => if query.size = 0 then [] else stringify query
  | _ => []

/-- `this.search || (query && ('?' + query)) || ''` -/
def writeSearch (u : Url) : JSString :=
  if isSet u.search then orEmpty u.search
  else if u.writeQuery ≠ [] then questionMark :: u.writeQuery
  else []

/-- A colon behind the protocol -/
def writeProtocol (protocol : JSString) : JSString :=
  if protocol ≠ [] ∧ protocol.getLast? ≠ some colon then protocol ++ [colon] else protocol

/-- A text that begins with `c`, unless it is empty -/
def headed (c : UInt16) (text : JSString) : JSString :=
  if text ≠ [] ∧ text.head? ≠ some c then c :: text else text

/-- `pathname.replace(/[?#]/g, encodeURIComponent)` -/
def escapePathname (pathname : JSString) : JSString :=
  pathname.flatMap fun c =>
    if c = questionMark then js "%3F" else if c = numberSign then js "%23" else [c]

/-- `search.replace('#', '%23')`, of the first one -/
def escapeSearch : JSString → JSString
  | [] => []
  | c :: rest => if c = numberSign then js "%23" ++ rest else c :: escapeSearch rest

/-- Are there slashes before the host? -/
def writesSlashes (u : Url) (host : Option JSString) : Bool :=
  u.slashes ||
    ((writeProtocol (orEmpty u.protocol)).isEmpty ||
      slashedProtocol (writeProtocol (orEmpty u.protocol))) && host.isSome

/-- What is written, with `host` as it is -/
def assemble (u : Url) (host : Option JSString) : JSString :=
  writeProtocol (orEmpty u.protocol) ++
    (if u.writesSlashes host then slash :: slash :: orEmpty host else orEmpty host) ++
      escapePathname
        (if u.writesSlashes host then headed slash (orEmpty u.pathname) else orEmpty u.pathname) ++
        escapeSearch (headed questionMark u.writeSearch) ++ headed numberSign (orEmpty u.hash)

/-- `Url.prototype.format`; none where it throws -/
def format (u : Url) : Option JSString :=
  (writeAuth u.auth).map fun auth => u.assemble (u.writeHost auth)

/-- `this.href = this.format()` -/
def withHref (u : Url) : Option Url := u.format.map fun href => { u with href := some href }

/-! ## What is not escaped -/

variable {text : JSString}

theorem escapePathname_of_free (noQuery : questionMark ∉ text) (noHash : numberSign ∉ text) :
    escapePathname text = text := by
  rw [escapePathname]
  have plain : ∀ c ∈ text, (if c = questionMark then js "%3F"
      else if c = numberSign then js "%23" else [c]) = [c] := by
    intro c mem
    have other : c ≠ questionMark := fun same => noQuery (same ▸ mem)
    have other' : c ≠ numberSign := fun same => noHash (same ▸ mem)
    rw [if_neg other, if_neg other']
  induction text with
  | nil => rfl
  | cons c rest ih =>
    rw [mem_cons, not_or] at noQuery noHash
    rw [flatMap_cons, plain c mem_cons_self,
      ih noQuery.2 noHash.2 fun d mem => plain d (mem_cons_of_mem _ mem)]
    rfl

theorem escapeSearch_of_free (noHash : numberSign ∉ text) : escapeSearch text = text := by
  induction text with
  | nil => rfl
  | cons c rest ih =>
    rw [mem_cons, not_or] at noHash
    rw [escapeSearch, if_neg (Ne.symm noHash.1), ih noHash.2]

theorem headed_cons (c : UInt16) (rest : JSString) : headed c (c :: rest) = c :: rest :=
  if_neg fun both => both.2 rfl

theorem headed_nil (c : UInt16) : headed c [] = [] := if_neg fun both => both.1 rfl

theorem format_of_path {u : Url} (protocol : u.protocol = none) (slashes : u.slashes = false)
    (auth : u.auth = none) (host : u.host = none) (hostname : u.hostname = none) :
    u.format = some (escapePathname (orEmpty u.pathname) ++
      escapeSearch (headed questionMark u.writeSearch) ++ headed numberSign (orEmpty u.hash)) := by
  have noHost : u.writeHost [] = none := by
    rw [writeHost, host, hostname]
    rfl
  have noSlashes : u.writesSlashes none = false := by
    rw [writesSlashes, slashes, Option.isSome_none, Bool.and_false]
    rfl
  have noAuth : writeAuth u.auth = some [] := by rw [auth]; rfl
  rw [format, noAuth, Option.map_some, noHost, assemble, noSlashes, protocol]
  rfl

end Url

end IoJs
