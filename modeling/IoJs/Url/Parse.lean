import IoJs.Url.Host

/-!
# Reading a URL

`Url.prototype.parse`. A string that `simplePathPattern` takes is a path with a query and nothing
else (`simpleUrl`); any other goes through `parseGeneral`, which takes the protocol, the slashes and
the host from its front, and then the hash and the query from its end.
-/

namespace IoJs.Url

open IoJs.Stream IoJs.RegExp IoJs.QueryString List Option

/-! ## Backslashes and blanks -/

def splitter (url : JSString) : UInt16 :=
  match url.idxOf? questionMark, url.idxOf? numberSign with
  | some queryIndex, some hashIndex => if queryIndex < hashIndex then questionMark else numberSign
  | _, _ => numberSign

/-- A backslash becomes a slash. -/
def toSlash (c : UInt16) : UInt16 := if c = unit '\\' then slash else c

/-- `uSplit[0].replace(slashRegex, '/')` between `split` and `join` -/
def replaceBackslashes (url : JSString) : JSString :=
  [splitter url].intercalate ((url.splitOn (splitter url)).modifyHead fun part => part.map toSlash)

/-- `\s`, and what `trim` takes away -/
def isSpace (c : UInt16) : Bool :=
  (0x9 ≤ c && c ≤ 0xD) || c == 0x20 || c == 0xA0 || c == 0x1680 || c == 0x180E ||
    (0x2000 ≤ c && c ≤ 0x200A) || c == 0x2028 || c == 0x2029 || c == 0x202F || c == 0x205F ||
      c == 0x3000 || c == 0xFEFF

def trim (text : JSString) : JSString := (text.dropWhile isSpace).rdropWhile isSpace

/-! ## The simple paths -/

/-- `simplePathPattern`: `/^(\/\/?(?!\/)[^\?\s]*)(\?[^\s]*)?$/`; its groups, where the second may
be missing -/
def simplePathPattern (rest : JSString) : Option (JSString × Option JSString) :=
  let pathname := rest.takeWhile fun c => c != questionMark && !isSpace c
  let search := rest.drop pathname.length
  if rest.head? = some slash ∧ ¬[slash, slash, slash] <+: rest ∧ search.all (!isSpace ·) then
    some (pathname, if search ≠ [] then some search else none)
  else none

/-- The fields of a simple path -/
def simpleUrl (engine : Engine) (rest : JSString) (simplePath : JSString × Option JSString)
    (parseQueryString : Bool) : Url :=
  { path := some rest
    href := some rest
    pathname := some simplePath.1
    search :=
      match simplePath.2 with
      | some search => some search
      | none => if parseQueryString then some [] else none
    query :=
      match simplePath.2 with
      | some search =>
        some (if parseQueryString then .object (QueryString.parse engine.toString (search.drop 1))
          else .text (search.drop 1))
      | none => if parseQueryString then some (.object .empty) else none }

/-! ## The general code -/

def isProtocolChar (c : UInt16) : Bool :=
  (unit 'a' ≤ c && c ≤ unit 'z') || (unit 'A' ≤ c && c ≤ unit 'Z') ||
    (unit '0' ≤ c && c ≤ unit '9') || c == unit '.' || c == unit '+' || c == unit '-'

/-- `protocolPattern`: `/^([a-z0-9.+-]+:)/i` -/
def protocolPattern (rest : JSString) : Option JSString :=
  let name := rest.takeWhile isProtocolChar
  if name ≠ [] ∧ rest[name.length]? = some colon then some (name ++ [colon]) else none

def isUserChar (c : UInt16) : Bool := c != at_ && c != slash

def userAtHost : JSString → Bool
  | first :: second :: rest =>
    first == slash && second == slash && !(rest.takeWhile isUserChar).isEmpty &&
      match rest.dropWhile isUserChar with
      | sign :: c :: _ => sign == at_ && isUserChar c
      | _ => false
  | _ => false

/-- What `ae` is escaped to -/
def escapeOf (ae : UInt16) : JSString :=
  match encodeURIComponent [ae] with
  | some esc => if esc = [ae] then percentEncode ae.toUInt8 else esc
  | none => []

/-- `rest.split(ae).join(esc)` -/
def replaceAll (ae : UInt16) (rest : JSString) : JSString :=
  rest.flatMap fun c => if c = ae then escapeOf ae else [c]

/-- The loop over `autoEscape` -/
def escapeRest (rest : JSString) : JSString :=
  autoEscape.foldl (fun rest ae => replaceAll ae rest) rest

/-- `rest.substr(i)` and `rest.slice(0, i)`, for the first index of `c` -/
def cutAt (c : UInt16) (rest : JSString) : Option JSString × JSString :=
  match rest.idxOf? c with
  | some i => (some (rest.drop i), rest.take i)
  | none => (none, rest)

/-- The fields from the end of the string, and `href`; none where `format` throws -/
def finish (engine : Engine) (u : Url) (parseQueryString : Bool) (rest : JSString) : Option Url :=
  let (hash, rest) := cutAt numberSign rest
  let (search, rest) := cutAt questionMark rest
  let pathname :=
    if rest ≠ [] then some rest
    else if u.protocol.any slashedProtocol && isSet u.hostname then some [slash]
    else none
  let search' := if parseQueryString && search.isNone then some [] else search
  { u with
    hash := hash
    search := search'
    query :=
      match search with
      | some search =>
        some (if parseQueryString then .object (QueryString.parse engine.toString (search.drop 1))
          else .text (search.drop 1))
      | none => if parseQueryString then some (.object .empty) else none
    pathname := pathname
    path :=
      if isSet pathname || isSet search' then some (orEmpty pathname ++ orEmpty search')
      else none }.withHref

/-- `rest.substr(0, 2) === '//'` -/
def startsWithSlashes (rest : JSString) : Bool := rest.take 2 == [slash, slash]

/-- What is left of `parse` where `proto` has been found, or has not -/
def parseBehind (engine : Engine) (proto : Option JSString) (rest : JSString)
    (parseQueryString slashesDenoteHost : Bool) : Option Url :=
  let lowerProto := proto.map Buffer.toLowerCase
  let slashes := (slashesDenoteHost || proto.isSome || userAtHost rest) && startsWithSlashes rest
  let hostless := proto.any hostlessProtocol
  let u : Url := { protocol := lowerProto, slashes := slashes && !hostless }
  let rest := if slashes && !hostless then rest.drop 2 else rest
  (if !hostless && (slashes || proto.any fun proto => !slashedProtocol proto) then
      authority engine u rest
    else some (u, rest)).bind fun (u, rest) =>
    finish engine u parseQueryString
      (if lowerProto.any unsafeProtocol then rest else escapeRest rest)

/-- The code of `parse` behind the simple paths -/
def parseGeneral (engine : Engine) (rest : JSString) (parseQueryString slashesDenoteHost : Bool) :
    Option Url :=
  let proto := protocolPattern rest
  parseBehind engine proto (rest.drop (orEmpty proto).length) parseQueryString slashesDenoteHost

/-- `Url.prototype.parse`; none where it throws -/
def parse (engine : Engine) (url : JSString) (parseQueryString slashesDenoteHost : Bool) :
    Option Url :=
  let url := replaceBackslashes url
  let rest := trim url
  match if !slashesDenoteHost && !url.contains numberSign then simplePathPattern rest else none with
  | some simplePath => some (simpleUrl engine rest simplePath parseQueryString)
  | none => parseGeneral engine rest parseQueryString slashesDenoteHost

/-! ## Slashes for backslashes -/

/-- Backslashes become slashes before the first `s`. -/
def slashedBefore (s : UInt16) (url : JSString) : JSString :=
  (url.takeWhile (· != s)).map toSlash ++ url.dropWhile (· != s)

variable {s c : UInt16}

theorem slashedBefore_cons (other : c ≠ s) (url : JSString) :
    slashedBefore s (c :: url) = toSlash c :: slashedBefore s url := by
  have inside : (c != s) = true := bne_iff_ne.mpr other
  rw [slashedBefore, takeWhile_cons_of_pos (p := (· != s)) inside,
    dropWhile_cons_of_pos (p := (· != s)) inside]
  rfl

theorem slashedBefore_cons_self (s : UInt16) (url : JSString) :
    slashedBefore s (s :: url) = s :: url := by
  have outside : ¬(s != s) = true := by simp
  rw [slashedBefore, takeWhile_cons_of_neg (p := (· != s)) outside,
    dropWhile_cons_of_neg (p := (· != s)) outside]
  rfl

theorem intercalate_modifyHead (s : UInt16) (url : JSString) :
    [s].intercalate ((url.splitOn s).modifyHead fun part => part.map toSlash) =
      slashedBefore s url := by
  induction url with
  | nil => rfl
  | cons c url ih =>
    obtain ⟨part, parts, split⟩ := exists_cons_of_ne_nil (splitOn_ne_nil s url)
    have whole := @intercalate_splitOn _ url _ _ s
    rw [split] at ih whole
    rw [splitOn_cons_eq_if_modifyHead, split]
    by_cases same : c = s
    · subst same
      rw [if_pos (beq_self_eq_true c), slashedBefore_cons_self, ← whole]
      exact intercalate_cons_of_ne_nil (cons_ne_nil part parts)
    rw [if_neg (by simpa using same), slashedBefore_cons same, ← ih]
    cases parts with
    | nil => rfl
    | cons => rfl

theorem replaceBackslashes_eq (url : JSString) :
    replaceBackslashes url = slashedBefore (splitter url) url :=
  intercalate_modifyHead (splitter url) url

variable {url : JSString}

theorem mem_slashedBefore (mem : c ∈ slashedBefore s url) : c = slash ∨ c ∈ url := by
  induction url with
  | nil => cases mem
  | cons d url ih =>
    by_cases same : d = s
    · subst same
      rw [slashedBefore_cons_self] at mem
      exact .inr mem
    rw [slashedBefore_cons same] at mem
    rcases mem_cons.mp mem with rfl | later
    · rw [toSlash]
      split_ifs
      · exact .inl rfl
      · exact .inr mem_cons_self
    · exact (ih later).imp_right (mem_cons_of_mem d)

theorem mem_replaceBackslashes (mem : c ∈ replaceBackslashes url) : c = slash ∨ c ∈ url :=
  mem_slashedBefore (replaceBackslashes_eq url ▸ mem)

variable {text : JSString}

theorem mem_trim (mem : c ∈ trim text) : c ∈ text :=
  (dropWhile_sublist isSpace).subset ((List.rdropWhile_prefix isSpace _).subset mem)

theorem splitter_cases (url : JSString) : splitter url = questionMark ∨
    splitter url = numberSign := by
  rw [splitter]
  split
  · split_ifs
    · exact .inl rfl
    · exact .inr rfl
  · exact .inr rfl

theorem splitter_cons (noQuery : c ≠ questionMark) (noHash : c ≠ numberSign)
    (url : JSString) : splitter (c :: url) = splitter url := by
  rw [splitter, splitter, List.idxOf?_cons, List.idxOf?_cons, if_neg (by simpa using noQuery),
    if_neg (by simpa using noHash)]
  cases url.idxOf? questionMark with
  | none => rfl
  | some =>
    cases url.idxOf? numberSign with
    | none => rfl
    | some => simp

theorem replaceBackslashes_append
    (plain : ∀ c ∈ text, c ≠ questionMark ∧ c ≠ numberSign ∧ c ≠ unit '\\') (url : JSString) :
    replaceBackslashes (text ++ url) = text ++ replaceBackslashes url := by
  induction text with
  | nil => rfl
  | cons c text ih =>
    obtain ⟨⟨noQuery, noHash, noBackslash⟩, plain⟩ := forall_mem_cons.mp plain
    have before := ih plain
    rw [replaceBackslashes_eq] at before ⊢
    have other : c ≠ splitter (text ++ url) := by
      rcases splitter_cases (text ++ url) with query | hash
      · rw [query]
        exact noQuery
      rw [hash]
      exact noHash
    rw [cons_append, splitter_cons noQuery noHash, slashedBefore_cons other, before, toSlash,
      if_neg noBackslash]
    rfl

/-! ## The ends of a string -/

variable {engine : Engine} {u u' : Url} {c : UInt16} {rest rest' before : JSString}
  {parseQueryString : Bool}

theorem cutAt_of_notMem (free : c ∉ rest) : cutAt c rest = (none, rest) := by
  rw [cutAt, List.idxOf?_eq_none_iff.mpr free]

theorem cutAt_append (free : c ∉ before) (after : JSString) :
    cutAt c (before ++ c :: after) = (some (c :: after), before) := by
  have found : (before ++ c :: after).idxOf? c = some before.length := by
    induction before with
    | nil => simp [List.idxOf?_cons]
    | cons d before ih =>
      rw [mem_cons, not_or] at free
      rw [cons_append, List.idxOf?_cons, if_neg (by simpa using Ne.symm free.1), ih free.2]
      rfl
  rw [cutAt, found]
  dsimp only
  rw [drop_left, take_left]

theorem exists_cutAt (c : UInt16) (rest : JSString) : c ∉ rest ∧ cutAt c rest = (none, rest) ∨
    ∃ before after, c ∉ before ∧ rest = before ++ c :: after ∧
      cutAt c rest = (some (c :: after), before) := by
  by_cases mem : c ∈ rest
  · obtain ⟨before, after, rfl, free⟩ := eq_append_cons_of_mem mem
    exact .inr ⟨before, after, free, rfl, cutAt_append free after⟩
  · exact .inl ⟨mem, cutAt_of_notMem mem⟩

/-! ## What the later steps keep -/

theorem withHref_eq_some (written : u.withHref = some u') :
    ∃ href, u.format = some href ∧ u' = { u with href := some href } := by
  obtain ⟨href, found, rfl⟩ := map_eq_some_iff.mp written
  exact ⟨href, found, rfl⟩

theorem finish_keeps (finished : finish engine u parseQueryString rest = some u') :
    u'.protocol = u.protocol ∧ u'.slashes = u.slashes ∧ u'.hostname = u.hostname := by
  obtain ⟨href, -, rfl⟩ := withHref_eq_some finished
  exact ⟨rfl, rfl, rfl⟩

theorem authority_keeps (taken : authority engine u rest = some (u', rest')) :
    u'.protocol = u.protocol ∧ u'.slashes = u.slashes := by
  obtain ⟨⟨auth, behind⟩, -, taken⟩ := bind_eq_some_iff.mp taken
  obtain ⟨hostname, -, same⟩ := map_eq_some_iff.mp taken
  obtain ⟨rfl, -⟩ := Prod.mk.inj same
  exact ⟨rfl, rfl⟩

end IoJs.Url
