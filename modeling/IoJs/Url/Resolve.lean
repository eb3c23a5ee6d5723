import IoJs.Url.Parse

/-!
# Resolving a URL

`Url.prototype.resolveObject`, which takes a parsed reference, and `resolve`. A reference that has
an authority or another protocol is taken as it is, or with little change; any other is merged with
the path (`mergePaths`), whose dots are removed from the end (`removeDots`).
-/

namespace IoJs.Url

open IoJs.Stream IoJs.RegExp

/-! ## Dots -/

def spliceOne (list : List JSString) (index : Nat) : List JSString :=
  if index < list.length then list.eraseIdx index else list.dropLast

/-- What the loop does at an index; the state is `srcPath` and `up`. -/
def removeDotsAt (i : Nat) (state : List JSString × Nat) : List JSString × Nat :=
  let last := state.1[i]?
  if last = some (js ".") then (spliceOne state.1 i, state.2)
  else if last = some (js "..") then (spliceOne state.1 i, state.2 + 1)
  else if state.2 ≠ 0 then (spliceOne state.1 i, state.2 - 1)
  else state

/-- The loop over the indices below the first argument, from the last one -/
def removeDots : Nat → List JSString × Nat → List JSString × Nat
  | 0, state => state
  | i + 1, state => removeDots i (removeDotsAt i state)

def isAbsolutePath : List JSString → Bool
  | [] => false
  | first :: _ => first.isEmpty || first.head? == some slash

/-- `srcPath.unshift('')`, unless the path is absolute -/
def addRoot (srcPath : List JSString) : List JSString :=
  if isAbsolutePath srcPath then srcPath else [] :: srcPath

/-- `srcPath.push('')`, unless there is a trailing slash -/
def addSlash (srcPath : List JSString) : List JSString :=
  if ([slash].intercalate srcPath).getLast? ≠ some slash then srcPath ++ [[]] else srcPath

/-! ## Hosts of protocols that are not slashed -/

/-- The host as a part of the path -/
def putHost (host : JSString) (path : List JSString) : List JSString :=
  if path.head? = some [] then host :: path.drop 1 else host :: path

def takeAuthInHost (result : Url) : Url :=
  match (orEmpty result.host).idxOf? at_ with
  | some (_ + 1) =>
    let authInHost := (orEmpty result.host).splitOn at_
    { result with auth := authInHost[0]?, host := authInHost[1]?, hostname := authInHost[1]? }
  | _ => result

/-- The host from the front of the path, and the path without it -/
def shiftHost (result : Url) (isAbsolute : Bool) (srcPath : List JSString) : Url × List JSString :=
  let host := if isAbsolute then [] else srcPath.headD []
  (takeAuthInHost { result with host := some host, hostname := some host },
    if isAbsolute then srcPath else srcPath.drop 1)

/-! ## Paths -/

/-- `path`, where there is a pathname or a search -/
def withPath (result : Url) : Url :=
  if result.pathname.isSome || result.search.isSome then
    { result with path := some (orEmpty result.pathname ++ orEmpty result.search) }
  else result

def hasTrailingSlash (result relative : Url) (srcPath : List JSString) : Bool :=
  let last := srcPath.getLastD []
  (isSet result.host || isSet relative.host || 1 < srcPath.length) &&
      (last == js "." || last == js "..") || last.isEmpty

/-- `srcPath` behind the dots -/
def dottedPath (mustEndAbs removeAllDots trailingSlash : Bool) (srcPath : List JSString) :
    List JSString :=
  let (srcPath, up) := removeDots (srcPath.length + 1) (srcPath, 0)
  let srcPath :=
    if !mustEndAbs && !removeAllDots then List.replicate up (js "..") ++ srcPath else srcPath
  let srcPath := if mustEndAbs then addRoot srcPath else srcPath
  if trailingSlash then addSlash srcPath else srcPath

/-- The end of `resolveObject`, from the test of `srcPath.length` on -/
def resolvePath (result relative : Url) (psychotic mustEndAbs removeAllDots : Bool)
    (srcPath : List JSString) : Option Url :=
  if srcPath = [] then
    { result with
      pathname := none
      path := if isSet result.search then some (slash :: orEmpty result.search)
        else none }.withHref
  else
    let srcPath := dottedPath mustEndAbs removeAllDots (hasTrailingSlash result relative srcPath)
      srcPath
    let isAbsolute := isAbsolutePath srcPath
    let (result, srcPath) :=
      if psychotic then shiftHost result isAbsolute srcPath else (result, srcPath)
    let mustEndAbs := mustEndAbs || isSet result.host && !srcPath.isEmpty
    let srcPath := if mustEndAbs && !isAbsolute then [] :: srcPath else srcPath
    let result := withPath
      (if srcPath = [] then { result with pathname := none, path := none }
      else { result with pathname := some ([slash].intercalate srcPath) })
    { result with
      auth := if isSet relative.auth then relative.auth else result.auth
      slashes := result.slashes || relative.slashes }.withHref

/-- `pathname && pathname.split('/') || []` -/
def pathParts (pathname : Option JSString) : List JSString :=
  if isSet pathname then (orEmpty pathname).splitOn slash else []

/-- `pathname.charAt(0) === '/'` -/
def startsWithSlash (pathname : Option JSString) : Bool := (orEmpty pathname).head? == some slash

/-- `resolveObject`, where the reference has no other protocol and no slashes -/
def mergePaths (result relative : Url) : Option Url :=
  let isRelAbs := isSet relative.host || startsWithSlash relative.pathname
  let removeAllDots := isRelAbs || startsWithSlash result.pathname ||
    isSet result.host && isSet relative.pathname
  let srcPath := pathParts result.pathname
  let relPath := pathParts relative.pathname
  let psychotic := isSet result.protocol && !result.protocol.any slashedProtocol
  let srcPath :=
    if psychotic && isSet result.host then putHost (orEmpty result.host) srcPath else srcPath
  let relPath :=
    if psychotic && isSet relative.protocol && isSet relative.host then
      putHost (orEmpty relative.host) relPath
    else relPath
  let result :=
    if psychotic then { result with hostname := some [], port := none, host := some [] } else result
  let relative :=
    if psychotic && isSet relative.protocol then
      { relative with hostname := none, port := none, host := none }
    else relative
  let mustEndAbs := removeAllDots &&
    (!psychotic || relPath.head? == some [] || srcPath.head? == some [])
  if isRelAbs then
    resolvePath
      { result with
        host := relative.host.or result.host
        hostname := relative.hostname.or result.hostname
        search := relative.search
        query := relative.query }
      relative psychotic mustEndAbs removeAllDots relPath
  else if relPath ≠ [] then
    resolvePath { result with search := relative.search, query := relative.query } relative
      psychotic mustEndAbs removeAllDots (srcPath.dropLast ++ relPath)
  else if relative.search.isSome then
    let result :=
      if psychotic then
        takeAuthInHost { result with host := srcPath.head?, hostname := srcPath.head? }
      else result
    (withPath { result with search := relative.search, query := relative.query }).withHref
  else resolvePath result relative psychotic mustEndAbs removeAllDots srcPath

/-- The host that is taken from the path of the reference, with the path that is left -/
def hostFromPath (relative : Url) : Url × Option JSString :=
  let relPath := ((orEmpty relative.pathname).splitOn slash).dropWhile List.isEmpty
  let host := relPath.headD []
  let relPath := relPath.drop 1
  let relPath := if relPath.head? ≠ some [] then [] :: relPath else relPath
  let relPath := if relPath.length < 2 then [] :: relPath else relPath
  ({ relative with
      host := some host
      hostname := if isSet relative.hostname then relative.hostname else some [] },
    some ([slash].intercalate relPath))

/-- `resolveObject`, where the reference has another protocol -/
def changeProtocol (result relative : Url) : Option Url :=
  if !relative.protocol.any slashedProtocol then relative.withHref
  else
    let (relative, pathname) :=
      if !isSet relative.host && !relative.protocol.any [js "file", js "file:"].contains &&
          !relative.protocol.any hostlessProtocol then hostFromPath relative
      else (relative, relative.pathname)
    { result with
      protocol := relative.protocol
      pathname := pathname
      search := relative.search
      query := relative.query
      host := some (orEmpty relative.host)
      auth := relative.auth
      hostname := if isSet relative.hostname then relative.hostname else relative.host
      port := relative.port
      path :=
        if isSet pathname || isSet relative.search then
          some (orEmpty pathname ++ orEmpty relative.search)
        else result.path
      slashes := result.slashes || relative.slashes }.withHref

/-- `Url.prototype.resolveObject`; none where `format` throws -/
def resolveObject (base relative : Url) : Option Url :=
  let result : Url := { base with hash := relative.hash }
  if relative.href = some [] then result.withHref
  else if relative.slashes && !isSet relative.protocol then
    let result : Url := { relative with protocol := result.protocol }
    (if result.protocol.any slashedProtocol && isSet result.hostname && !isSet result.pathname then
      { result with path := some [slash], pathname := some [slash] }
    else result).withHref
  else if isSet relative.protocol && relative.protocol ≠ result.protocol then
    changeProtocol result relative
  else mergePaths result relative

/-- `urlResolve`; none where it throws -/
def resolve (engine : Engine) (source relative : JSString) : Option JSString :=
  (parse engine source false true).bind fun base =>
    (parse engine relative false true).bind fun relative =>
      (resolveObject base relative).bind format

end IoJs.Url
