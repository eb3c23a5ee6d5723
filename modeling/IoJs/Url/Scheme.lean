import IoJs.Url.Parse

/-!
# The spelling of a scheme

What `parse` does behind a scheme depends on the scheme in lower case, and on two questions that are
asked about it as it is spelled (`parse_scheme`): does it never have a host, and does it always have
slashes?  Where the answers lead to a host for one spelling only, the fields differ
(`parseAs_eq_iff`); so the letters matter for the schemes of the tables (`parse_spellings_iff`).
-/

namespace IoJs.Url

open IoJs.Stream IoJs.RegExp List Option
open IoJs.Buffer (toLowerCase)

/-- A scheme as it is spelled, without the colon -/
structure Scheme where
  text : JSString
  filled : text ≠ []
  chars : ∀ c ∈ text, isProtocolChar c = true

namespace Scheme

def proto (scheme : Scheme) : JSString := scheme.text ++ [colon]

def lowerProto (scheme : Scheme) : JSString := toLowerCase scheme.proto

/-- Is it spelled in lower case? -/
def isLower (scheme : Scheme) : Bool := scheme.lowerProto == scheme.proto

end Scheme

variable {engine : Engine} {scheme first second : Scheme} {blanks tail url rest : JSString}
  {parseQueryString slashesDenoteHost : Bool}
variable {c : UInt16} {proto : JSString} {u : Url}

/-! ## Reading a scheme -/

theorem isProtocolChar_spec (inside : isProtocolChar c = true) :
    (c ≠ questionMark ∧ c ≠ numberSign ∧ c ≠ unit '\\') ∧ c ≠ slash ∧ isSpace c = false := by
  have small : c.toNat < 128 := by
    have lower : (unit 'z').toNat = 122 := rfl
    have upper : (unit 'Z').toNat = 90 := rfl
    have digit : (unit '9').toNat = 57 := rfl
    simp only [isProtocolChar, Bool.or_eq_true, Bool.and_eq_true, decide_eq_true_eq, beq_iff_eq,
      UInt16.le_iff_toNat_le] at inside
    rcases inside with ((((⟨-, le⟩ | ⟨-, le⟩) | ⟨-, le⟩) | rfl) | rfl) | rfl
    · omega
    · omega
    · omega
    · decide
    · decide
    · decide
  have all : ∀ n < 128, isProtocolChar (UInt16.ofNat n) = true →
      (UInt16.ofNat n ≠ questionMark ∧ UInt16.ofNat n ≠ numberSign ∧ UInt16.ofNat n ≠ unit '\\') ∧
        UInt16.ofNat n ≠ slash ∧ isSpace (UInt16.ofNat n) = false := by decide +kernel
  have here := all c.toNat small
  rw [UInt16.ofNat_toNat] at here
  exact here inside

theorem isSpace_spec (blank : isSpace c = true) :
    c ≠ questionMark ∧ c ≠ numberSign ∧ c ≠ unit '\\' := by
  refine ⟨?_, ?_, ?_⟩
  · rintro rfl
    exact absurd blank (by decide)
  · rintro rfl
    exact absurd blank (by decide)
  rintro rfl
  exact absurd blank (by decide)

theorem rdropWhile_append_cons {p : UInt16 → Bool} (stop : p c = false)
    (l rest : JSString) : (l ++ c :: rest).rdropWhile p = l ++ c :: rest.rdropWhile p := by
  have out : ¬p c = true := by rw [stop]; exact Bool.false_ne_true
  rw [List.rdropWhile, List.rdropWhile, reverse_append, reverse_cons, append_assoc,
    dropWhile_append]
  split
  · rename_i none
    rw [List.isEmpty_iff.mp none, singleton_append, dropWhile_cons_of_neg out]
    simp
  · simp

/-- What `parse` reads behind a scheme -/
def behind (tail : JSString) : JSString := (replaceBackslashes tail).rdropWhile isSpace

theorem Scheme.plain (scheme : Scheme) : ∀ c ∈ scheme.proto,
    c ≠ questionMark ∧ c ≠ numberSign ∧ c ≠ unit '\\' := by
  intro c mem
  rcases mem_append.mp mem with inside | last
  · exact (isProtocolChar_spec (scheme.chars c inside)).1
  rw [mem_singleton.mp last]
  decide

theorem trim_scheme (blank : ∀ c ∈ blanks, isSpace c = true) (scheme : Scheme) (tail : JSString) :
    trim (replaceBackslashes (blanks ++ scheme.proto ++ tail)) = scheme.proto ++ behind tail := by
  obtain ⟨c, text, split⟩ := exists_cons_of_ne_nil scheme.filled
  have first : ¬isSpace c = true := by
    have inside := scheme.chars c (split ▸ mem_cons_self)
    rw [(isProtocolChar_spec inside).2.2]
    exact Bool.false_ne_true
  rw [append_assoc, replaceBackslashes_append fun c mem => isSpace_spec (blank c mem),
    replaceBackslashes_append scheme.plain, trim, dropWhile_append_of_pos blank, Scheme.proto,
    split, cons_append, cons_append, dropWhile_cons_of_neg first, append_assoc,
    ← cons_append, ← cons_append, singleton_append,
    rdropWhile_append_cons (by decide)]
  exact (append_assoc (c :: text) [colon] (behind tail)).symm

theorem protocolPattern_scheme (scheme : Scheme) (rest : JSString) :
    protocolPattern (scheme.proto ++ rest) = some scheme.proto := by
  have stop : ¬isProtocolChar colon = true := by decide
  have name : (scheme.proto ++ rest).takeWhile isProtocolChar = scheme.text := by
    rw [Scheme.proto, append_assoc, takeWhile_append_of_pos scheme.chars,
      singleton_append, takeWhile_cons_of_neg stop, append_nil]
  have sign : (scheme.proto ++ rest)[scheme.text.length]? = some colon := by
    rw [Scheme.proto, append_assoc, List.getElem?_append_right (Nat.le_refl _), Nat.sub_self]
    rfl
  rw [protocolPattern, name]
  exact if_pos ⟨scheme.filled, sign⟩

theorem simplePathPattern_scheme (scheme : Scheme) (rest : JSString) :
    simplePathPattern (scheme.proto ++ rest) = none := by
  obtain ⟨c, text, split⟩ := exists_cons_of_ne_nil scheme.filled
  have first : c ≠ slash := (isProtocolChar_spec (scheme.chars c (split ▸ mem_cons_self))).2.1
  rw [simplePathPattern]
  refine if_neg fun all => first ?_
  rw [Scheme.proto, split] at all
  exact some.inj all.1

theorem parse_scheme (blank : ∀ c ∈ blanks, isSpace c = true) (scheme : Scheme) (tail : JSString) :
    parse engine (blanks ++ scheme.proto ++ tail) parseQueryString slashesDenoteHost =
      parseBehind engine (some scheme.proto) (behind tail) parseQueryString slashesDenoteHost := by
  rw [parse, trim_scheme blank, simplePathPattern_scheme, ite_self]
  change parseGeneral engine (scheme.proto ++ behind tail) _ _ = _
  rw [parseGeneral, protocolPattern_scheme]
  change parseBehind engine (some scheme.proto)
    ((scheme.proto ++ behind tail).drop scheme.proto.length) _ _ = _
  rw [drop_left]

/-! ## The two questions -/

/-- What `parse` does where it has these answers about the scheme -/
def parseAs (engine : Engine) (lowerProto : JSString) (hostless slashed : Bool) (rest : JSString)
    (parseQueryString : Bool) : Option Url :=
  let slashes := startsWithSlashes rest && !hostless
  let u : Url := { protocol := some lowerProto, slashes := slashes }
  let rest' := if slashes then rest.drop 2 else rest
  (if !hostless && (startsWithSlashes rest || !slashed) then authority engine u rest'
    else some (u, rest')).bind fun (u, rest) =>
    finish engine u parseQueryString
      (if unsafeProtocol lowerProto then rest else escapeRest rest)

theorem parseBehind_some (scheme : Scheme) :
    parseBehind engine (some scheme.proto) rest parseQueryString slashesDenoteHost =
      parseAs engine scheme.lowerProto (hostlessProtocol scheme.proto)
        (slashedProtocol scheme.proto) rest parseQueryString := by
  simp only [parseBehind, parseAs, map_some, isSome_some, Bool.or_true, Bool.true_or,
    Bool.true_and, any_some]
  rfl

theorem exists_finish (auth : u.auth = none) :
    ∃ u', finish engine u parseQueryString rest = some u' := by
  simp [finish, withHref, format, writeAuth, auth]

/-- Is there a host? -/
def takesHost (hostless slashed : Bool) (rest : JSString) : Bool :=
  !hostless && (startsWithSlashes rest || !slashed)

variable {lowerProto : JSString} {hostless hostless' slashed slashed' : Bool} {u : Url}

theorem isSome_hostname_parseAs (takes : takesHost hostless slashed rest = true)
    (parsed : parseAs engine lowerProto hostless slashed rest parseQueryString = some u) :
    u.hostname.isSome = true := by
  rw [parseAs, ← takesHost, if_pos takes] at parsed
  obtain ⟨⟨u', rest'⟩, taken, finished⟩ := bind_eq_some_iff.mp parsed
  rw [(finish_keeps finished).2.2]
  exact isSome_hostname_authority taken

theorem exists_parseAs (takes : takesHost hostless slashed rest = false) :
    ∃ u, parseAs engine lowerProto hostless slashed rest parseQueryString = some u ∧
      u.hostname = none := by
  rw [parseAs, ← takesHost, if_neg (by rw [takes]; exact Bool.false_ne_true), bind_some]
  obtain ⟨u, finished⟩ := @exists_finish engine
    (if unsafeProtocol lowerProto then
        if (startsWithSlashes rest && !hostless) = true then rest.drop 2 else rest
      else escapeRest (if (startsWithSlashes rest && !hostless) = true then rest.drop 2 else rest))
    parseQueryString { protocol := some lowerProto, slashes := startsWithSlashes rest && !hostless }
    rfl
  exact ⟨u, finished, (finish_keeps finished).2.2⟩

theorem parseAs_congr (takes : takesHost hostless slashed rest = takesHost hostless slashed' rest) :
    parseAs engine lowerProto hostless slashed rest parseQueryString =
      parseAs engine lowerProto hostless slashed' rest parseQueryString := by
  rw [parseAs, parseAs, ← takesHost, ← takesHost, takes]

theorem parseAs_ne (takes : takesHost hostless slashed rest = false)
    (takes' : takesHost hostless' slashed' rest = true) :
    parseAs engine lowerProto hostless slashed rest parseQueryString ≠
      parseAs engine lowerProto hostless' slashed' rest parseQueryString := by
  intro same
  obtain ⟨u, parsed, none⟩ := @exists_parseAs engine rest parseQueryString lowerProto _ _ takes
  rw [parsed] at same
  have some_ := isSome_hostname_parseAs takes' same.symm
  rw [none] at some_
  cases some_

theorem toLowerCase_of_hostlessProtocol (found : hostlessProtocol proto = true) :
    toLowerCase proto = proto := by
  have all : ∀ entry ∈ [js "javascript", js "javascript:"], toLowerCase entry = entry := by decide
  exact all proto (contains_iff_mem.mp found)

theorem toLowerCase_of_slashedProtocol (found : slashedProtocol proto = true) :
    toLowerCase proto = proto := by
  have all : ∀ entry ∈ [js "http", js "https", js "ftp", js "gopher", js "file", js "http:",
      js "https:", js "ftp:", js "gopher:", js "file:"], toLowerCase entry = entry := by decide
  exact all proto (contains_iff_mem.mp found)

theorem Scheme.lowerProto_of_isLower (lower : scheme.isLower = true) :
    scheme.lowerProto = scheme.proto := beq_iff_eq.mp lower

theorem Scheme.not_found (other : scheme.isLower = false) :
    hostlessProtocol scheme.proto = false ∧ slashedProtocol scheme.proto = false := by
  have differ : toLowerCase scheme.proto ≠ scheme.proto := by
    intro same
    rw [isLower, lowerProto, same, beq_self_eq_true] at other
    cases other
  constructor
  · exact Bool.eq_false_iff.mpr fun found => differ (toLowerCase_of_hostlessProtocol found)
  · exact Bool.eq_false_iff.mpr fun found => differ (toLowerCase_of_slashedProtocol found)

/-! ## Slashes behind a scheme -/

/-- Two slashes or backslashes -/
def startsSlashed (tail : JSString) : Bool := (tail.take 2).map toSlash == [slash, slash]

theorem startsWithSlashes_iff : startsWithSlashes rest = true ↔ [slash, slash] <+: rest := by
  rw [startsWithSlashes, beq_iff_eq, prefix_iff_eq_take]
  exact eq_comm

theorem startsWithSlashes_rdropWhile (rest : JSString) :
    startsWithSlashes (rest.rdropWhile isSpace) = startsWithSlashes rest := by
  rw [Bool.eq_iff_iff, startsWithSlashes_iff, startsWithSlashes_iff]
  constructor
  · exact fun first => first.trans (List.rdropWhile_prefix isSpace rest)
  rintro ⟨more, rfl⟩
  have kept := rdropWhile_append_cons (p := isSpace) (c := slash) (by decide) [slash] more
  exact ⟨more.rdropWhile isSpace, kept.symm⟩

theorem startsWithSlashes_behind (tail : JSString) :
    startsWithSlashes (behind tail) = startsSlashed tail := by
  rw [behind, startsWithSlashes_rdropWhile, replaceBackslashes_eq]
  have ends := splitter_cases tail
  generalize splitter tail = s at ends
  have same : toSlash s = s ∧ (s == slash) = false := by
    rcases ends with rfl | rfl
    · decide
    · decide
  match tail with
  | [] => rfl
  | [c] =>
    by_cases here : c = s
    · subst here
      rw [slashedBefore_cons_self]
      simp [startsWithSlashes, startsSlashed]
    rw [slashedBefore_cons here]
    simp [startsWithSlashes, startsSlashed, slashedBefore]
  | c :: d :: tail =>
    by_cases here : c = s
    · subst here
      rw [slashedBefore_cons_self]
      simp [startsWithSlashes, startsSlashed, same]
    rw [slashedBefore_cons here]
    by_cases next : d = s
    · subst next
      rw [slashedBefore_cons_self]
      simp [startsWithSlashes, startsSlashed, same]
    rw [slashedBefore_cons next]
    simp [startsWithSlashes, startsSlashed]

/-! ## Two spellings -/

theorem parseAs_lower_iff (lower : first.isLower = true) (other : second.isLower = false) :
    parseAs engine first.lowerProto (hostlessProtocol first.proto) (slashedProtocol first.proto)
        rest parseQueryString =
      parseAs engine first.lowerProto (hostlessProtocol second.proto)
        (slashedProtocol second.proto) rest parseQueryString ↔
      hostlessProtocol first.lowerProto = false ∧
        (slashedProtocol first.lowerProto = true → startsWithSlashes rest = true) := by
  obtain ⟨noHostless, noSlashed⟩ := Scheme.not_found other
  rw [Scheme.lowerProto_of_isLower lower, noHostless, noSlashed]
  cases hostless : hostlessProtocol first.proto with
  | true =>
    refine iff_of_false (parseAs_ne rfl ?_) fun both => Bool.noConfusion both.1
    rw [takesHost, Bool.not_false, Bool.or_true, Bool.and_true]
  | false =>
    rw [and_iff_right rfl]
    cases slashed : slashedProtocol first.proto with
    | false => exact iff_of_true rfl fun none => Bool.noConfusion none
    | true =>
      rw [forall_prop_of_true rfl]
      cases slashes : startsWithSlashes rest with
      | true =>
        refine iff_of_true (parseAs_congr ?_) rfl
        rw [takesHost, takesHost, slashes]
        rfl
      | false =>
        refine iff_of_false (parseAs_ne ?_ ?_) Bool.false_ne_true
        · rw [takesHost, slashes]
          rfl
        rw [takesHost, slashes]
        rfl

/-- **The letters of a scheme matter** exactly for the schemes of the tables, unless there are
slashes behind one that always has them. -/
theorem parse_spellings_iff (engine : Engine) (parseQueryString slashesDenoteHost : Bool)
    (tail : JSString) (blank : ∀ c ∈ blanks, isSpace c = true)
    (same : first.lowerProto = second.lowerProto) :
    parse engine (blanks ++ first.proto ++ tail) parseQueryString slashesDenoteHost =
        parse engine (blanks ++ second.proto ++ tail) parseQueryString slashesDenoteHost ↔
      first.isLower = second.isLower ∨ hostlessProtocol first.lowerProto = false ∧
          (slashedProtocol first.lowerProto = true → startsSlashed tail = true) := by
  rw [parse_scheme blank, parse_scheme blank, parseBehind_some, parseBehind_some, ← same,
    ← startsWithSlashes_behind]
  cases lower : first.isLower with
  | true =>
    cases lower' : second.isLower with
    | true =>
      have text : first.proto = second.proto := by
        rw [← Scheme.lowerProto_of_isLower lower, same, Scheme.lowerProto_of_isLower lower']
      rw [text]
      exact iff_of_true rfl (.inl rfl)
    | false => rw [parseAs_lower_iff lower lower', or_iff_right Bool.false_ne_true.symm]
  | false =>
    cases lower' : second.isLower with
    | true => rw [eq_comm, same, parseAs_lower_iff lower' lower, or_iff_right Bool.false_ne_true]
    | false =>
      obtain ⟨noHostless, noSlashed⟩ := Scheme.not_found lower
      obtain ⟨noHostless', noSlashed'⟩ := Scheme.not_found lower'
      rw [noHostless, noSlashed, noHostless', noSlashed']
      exact iff_of_true rfl (.inl rfl)

/-- Capital letters before slashes -/
theorem parse_spellings_http : parse asciiEngine (js "HTTP:" ++ js "//h/p") true false =
    parse asciiEngine (js "http:" ++ js "//h/p") true false :=
  (@parse_spellings_iff ⟨js "HTTP", by decide, List.all_eq_true.mp (by decide)⟩
    ⟨js "http", by decide, List.all_eq_true.mp (by decide)⟩ [] asciiEngine true false (js "//h/p")
      (fun c mem => by cases mem) (by decide)).mpr
    (.inr ⟨by decide, by decide⟩)

/-- What is behind `JavaScript:` is taken for a host. -/
theorem not_parse_spellings :
    ¬∀ (engine : Engine) (parseQueryString slashesDenoteHost : Bool) (blanks : JSString)
      (first second : Scheme) (tail : JSString), (∀ c ∈ blanks, isSpace c = true) →
        first.lowerProto = second.lowerProto →
          parse engine (blanks ++ first.proto ++ tail) parseQueryString slashesDenoteHost =
            parse engine (blanks ++ second.proto ++ tail) parseQueryString slashesDenoteHost := by
  intro all
  have none : ∀ c ∈ ([] : JSString), isSpace c = true := nofun
  let first : Scheme := ⟨js "javascript", by decide, List.all_eq_true.mp (by decide)⟩
  let second : Scheme := ⟨js "JavaScript", by decide, List.all_eq_true.mp (by decide)⟩
  have alike : first.lowerProto = second.lowerProto := by decide
  have same := all asciiEngine false false [] first second (js "x") none alike
  rw [parse_scheme none, parse_scheme none, parseBehind_some, parseBehind_some, ← alike] at same
  exact parseAs_ne (by decide) (by decide) same

end IoJs.Url
