import IoJs.Url.Parse

/-!
# The simple paths

The general code makes of a path with a query what `simpleUrl` makes of it, if it finds no host and
has nothing to escape (`finish_absolute`). Characters of `autoEscape` are longer when they are
escaped (`escapeRest_eq_self_iff`), and a user before a host is given slashes, so the two codes
agree on the other strings only (`simplePath_agrees_iff`).
-/

namespace IoJs.Url

open IoJs.Stream IoJs.RegExp IoJs.QueryString List Option

variable {engine : Engine} {c ae : UInt16} {url rest : JSString} {chars : JSString}
  {simplePath : JSString × Option JSString} {parseQueryString : Bool}

/-! ## What is escaped -/

theorem escapeOf_spec (mem : ae ∈ autoEscape) :
    (escapeOf ae).length = 3 ∧ numberSign ∉ escapeOf ae ∧ ae ≠ slash := by
  have all : ∀ ae ∈ autoEscape,
      (escapeOf ae).length = 3 ∧ numberSign ∉ escapeOf ae ∧ ae ≠ slash :=
    @of_decide_eq_true _ (List.decidableBAll _ _) (by decide)
  exact all ae mem

theorem replaceAll_cons (ae c : UInt16) (rest : JSString) :
    replaceAll ae (c :: rest) = (if c = ae then escapeOf ae else [c]) ++ replaceAll ae rest :=
  flatMap_cons

theorem replaceAll_of_notMem (free : ae ∉ rest) : replaceAll ae rest = rest := by
  induction rest with
  | nil => rfl
  | cons c rest ih =>
    rw [mem_cons, not_or] at free
    rw [replaceAll_cons, if_neg (Ne.symm free.1), ih free.2]
    rfl

theorem length_le_replaceAll (mem : ae ∈ autoEscape) (rest : JSString) :
    rest.length ≤ (replaceAll ae rest).length := by
  induction rest with
  | nil => exact Nat.le_refl _
  | cons =>
    have long := (escapeOf_spec mem).1
    rw [replaceAll_cons, length_append, length_cons]
    split_ifs
    · omega
    rw [length_singleton]
    omega

theorem length_lt_replaceAll (mem : ae ∈ autoEscape) (there : ae ∈ rest) :
    rest.length < (replaceAll ae rest).length := by
  obtain ⟨before, after, rfl⟩ := append_of_mem there
  have first := length_le_replaceAll mem before
  have second := length_le_replaceAll mem after
  have long := (escapeOf_spec mem).1
  have split : replaceAll ae (before ++ ae :: after) =
      replaceAll ae before ++ (escapeOf ae ++ replaceAll ae after) := by
    rw [replaceAll, flatMap_append]
    change replaceAll ae before ++ replaceAll ae (ae :: after) = _
    rw [replaceAll_cons, if_pos rfl]
  rw [split]
  simp only [length_append, length_cons]
  omega

theorem length_le_foldl (of : ∀ ae ∈ chars, ae ∈ autoEscape) (rest : JSString) :
    rest.length ≤ (chars.foldl (fun rest ae => replaceAll ae rest) rest).length := by
  induction chars generalizing rest with
  | nil => exact Nat.le_refl _
  | cons ae chars ih =>
    obtain ⟨mem, of⟩ := forall_mem_cons.mp of
    exact (length_le_replaceAll mem rest).trans (ih of (replaceAll ae rest))

theorem foldl_eq_self_iff (of : ∀ ae ∈ chars, ae ∈ autoEscape) (rest : JSString) :
    chars.foldl (fun rest ae => replaceAll ae rest) rest = rest ↔ ∀ c ∈ rest, c ∉ chars := by
  induction chars with
  | nil => simp
  | cons ae chars ih =>
    obtain ⟨mem, of⟩ := forall_mem_cons.mp of
    rw [foldl_cons]
    by_cases there : ae ∈ rest
    · refine iff_of_false ?_ fun free => free ae there mem_cons_self
      intro same
      have longer := length_lt_replaceAll mem there
      have all := length_le_foldl of (replaceAll ae rest)
      rw [same] at all
      omega
    rw [replaceAll_of_notMem there, ih of]
    refine forall₂_congr fun c here => ?_
    have other : c ≠ ae := fun same => there (same ▸ here)
    rw [mem_cons, not_or, and_iff_right other]

theorem escapeRest_eq_self_iff : escapeRest rest = rest ↔ ∀ c ∈ rest, c ∉ autoEscape :=
  foldl_eq_self_iff (fun _ mem => mem) rest

theorem replaceAll_keeps (mem : ae ∈ autoEscape) (absolute : rest.head? = some slash)
    (noHash : numberSign ∉ rest) :
    (replaceAll ae rest).head? = some slash ∧ numberSign ∉ replaceAll ae rest := by
  obtain ⟨-, free, notSlash⟩ := escapeOf_spec mem
  constructor
  · obtain ⟨tail, rfl⟩ := List.head?_eq_some_iff.mp absolute
    rw [replaceAll_cons, if_neg (Ne.symm notSlash)]
    rfl
  intro hash
  obtain ⟨c, here, hash⟩ := mem_flatMap.mp hash
  split_ifs at hash with same
  · exact free hash
  rw [mem_singleton.mp hash] at noHash
  exact noHash here

theorem escapeRest_keeps (absolute : rest.head? = some slash) (noHash : numberSign ∉ rest) :
    (escapeRest rest).head? = some slash ∧ numberSign ∉ escapeRest rest := by
  have all {chars rest : JSString} (of : ∀ ae ∈ chars, ae ∈ autoEscape)
    (absolute : rest.head? = some slash)
      (noHash : numberSign ∉ rest) :
      (chars.foldl (fun rest ae => replaceAll ae rest) rest).head? = some slash ∧
        numberSign ∉ chars.foldl (fun rest ae => replaceAll ae rest) rest := by
    induction chars generalizing rest with
    | nil => exact ⟨absolute, noHash⟩
    | cons ae chars ih =>
      obtain ⟨mem, of⟩ := forall_mem_cons.mp of
      obtain ⟨absolute, noHash⟩ := replaceAll_keeps mem absolute noHash
      exact ih of absolute noHash
  exact all (fun _ mem => mem) absolute noHash

/-! ## A path and a query -/

/-- What the pattern takes begins with a slash, and is cut at the first question mark. -/
theorem of_simplePathPattern (simple : simplePathPattern rest = some simplePath) :
    rest.head? = some slash ∧ simplePath = (cutAt questionMark rest).swap := by
  obtain ⟨inPath, search, split, free, tail⟩ : ∃ pathname search, rest = pathname ++ search ∧
      questionMark ∉ pathname ∧
      (rest.takeWhile fun c => c != questionMark && !isSpace c) = pathname ∧
        ∀ c after, search = c :: after → c = questionMark ∨ isSpace c = true := by
    refine ⟨_, rest.dropWhile _, takeWhile_append_dropWhile.symm, ?_, rfl, ?_⟩
    · intro mem
      have inside := mem_takeWhile_imp mem
      simp at inside
    intro c after eq
    have first := List.head?_dropWhile_not (fun c => c != questionMark && !isSpace c) rest
    rw [eq] at first
    simp at first
    tauto
  rw [simplePathPattern, tail.1] at simple
  have drop : rest.drop inPath.length = search := by rw [split, drop_left]
  rw [drop] at simple
  by_cases all : rest.head? = some slash ∧ ¬[slash, slash, slash] <+: rest ∧
      search.all (!isSpace ·) = true
  · rw [if_pos all] at simple
    refine ⟨all.1, ?_⟩
    cases simple
    cases search with
    | nil =>
      rw [append_nil] at split
      rw [split, cutAt_of_notMem free]
      rfl
    | cons c after =>
      rcases tail.2 c after rfl with rfl | space
      · rw [split, cutAt_append free]
        rfl
      have plain := List.all_eq_true.mp all.2.2 c mem_cons_self
      rw [space] at plain
      cases plain
  rw [if_neg all] at simple
  cases simple

theorem finish_absolute (absolute : rest.head? = some slash) (noHash : numberSign ∉ rest) :
    finish engine {} parseQueryString rest =
      some (simpleUrl engine rest (cutAt questionMark rest).swap parseQueryString) := by
  obtain ⟨free, cut⟩ | ⟨pathname, after, free, rfl, cut⟩ := exists_cutAt questionMark rest
  · obtain ⟨tail, rfl⟩ := List.head?_eq_some_iff.mp absolute
    have written := escapePathname_of_free free noHash
    simp only [finish, cutAt_of_notMem noHash, cut]
    rw [withHref, format_of_path rfl rfl rfl rfl rfl]
    cases parseQueryString with
    | false => simp [simpleUrl, writeSearch, writeQuery, headed_nil, escapeSearch, written]
    | true => simp [simpleUrl, writeSearch, writeQuery, headed_nil, escapeSearch, written,
      Library.Properties.size_empty]
  rw [mem_append, not_or] at noHash
  have filled : pathname ≠ [] := by
    rintro rfl
    exact absurd (some.inj absolute) (by decide)
  have written := escapePathname_of_free free noHash.1
  have search := escapeSearch_of_free noHash.2
  simp only [finish, cutAt_of_notMem
    (show numberSign ∉ pathname ++ questionMark :: after by simpa using noHash), cut]
  rw [withHref, format_of_path rfl rfl rfl rfl rfl]
  simp [simpleUrl, writeSearch, headed_cons, headed_nil, search, written, filled]

/-! ## The two codes -/

theorem parseGeneral_absolute (absolute : rest.head? = some slash) :
    parseGeneral engine rest parseQueryString false = if userAtHost rest then
        (authority engine { slashes := true } (rest.drop 2)).bind fun (u, rest) =>
          finish engine u parseQueryString (escapeRest rest)
      else finish engine {} parseQueryString (escapeRest rest) := by
  have noProtocol : protocolPattern rest = none := by
    obtain ⟨tail, rfl⟩ := List.head?_eq_some_iff.mp absolute
    have none : ¬isProtocolChar slash = true := by decide
    rfl
  have started (user : userAtHost rest = true) : startsWithSlashes rest = true := by
    match rest, user with
    | first :: second :: rest, user =>
      simp only [userAtHost, Bool.and_eq_true, beq_iff_eq] at user
      obtain ⟨⟨⟨rfl, rfl⟩, -⟩, -⟩ := user
      rfl
  rw [parseGeneral, noProtocol, parseBehind]
  cases user : userAtHost rest with
  | false => simp [user]
  | true => simp [user, started user]

theorem simpleUrl_inj {other : JSString} {otherPath : JSString × Option JSString}
    (same : simpleUrl engine rest simplePath parseQueryString =
      simpleUrl engine other otherPath parseQueryString) : rest = other :=
  some.inj (congrArg Url.href same)

/-- **The fast path agrees with the general code** exactly where nothing is escaped and no user is
before a host. -/
theorem simplePath_agrees_iff (engine : Engine) (parseQueryString : Bool)
    (noHash : numberSign ∉ url)
    (simple : (simplePathPattern (trim (replaceBackslashes url))).isSome = true) :
    parse engine url parseQueryString false =
        parseGeneral engine (trim (replaceBackslashes url)) parseQueryString false ↔
      (∀ c ∈ trim (replaceBackslashes url), c ∉ autoEscape) ∧
        userAtHost (trim (replaceBackslashes url)) = false := by
  obtain ⟨simplePath, found⟩ := isSome_iff_exists.mp simple
  have noHash' : numberSign ∉ replaceBackslashes url := fun mem =>
    (mem_replaceBackslashes mem).elim (by decide) noHash
  have fast : parse engine url parseQueryString false =
      some (simpleUrl engine (trim (replaceBackslashes url)) simplePath parseQueryString) := by
    simp [parse, noHash', found]
  rw [fast]
  have noHash'' : numberSign ∉ trim (replaceBackslashes url) := mt mem_trim noHash'
  generalize trim (replaceBackslashes url) = rest at found noHash''
  obtain ⟨absolute, rfl⟩ := of_simplePathPattern found
  rw [parseGeneral_absolute absolute, ← escapeRest_eq_self_iff]
  cases user : userAtHost rest with
  | true =>
    refine iff_of_false ?_ fun both => Bool.noConfusion both.2
    intro same
    obtain ⟨⟨u, behind⟩, taken, finished⟩ := bind_eq_some_iff.mp same.symm
    have slashes := (finish_keeps finished).2.1
    rw [(authority_keeps taken).2] at slashes
    exact Bool.noConfusion slashes
  | false =>
    obtain ⟨absolute', free⟩ := escapeRest_keeps absolute noHash''
    rw [if_neg Bool.false_ne_true, finish_absolute absolute' free, and_iff_left rfl]
    constructor
    · intro same
      exact (simpleUrl_inj (some.inj same)).symm
    intro same
    rw [same]

/-- A path with a query has nothing to escape. -/
theorem simplePath_agrees_query : parse asciiEngine (js "/p?q") true false =
    parseGeneral asciiEngine (trim (replaceBackslashes (js "/p?q"))) true false :=
  (simplePath_agrees_iff asciiEngine true (by decide) (by decide)).mpr
    ⟨@of_decide_eq_true _ (List.decidableBAll _ _) (by decide), by decide⟩

/-- The fast path leaves an apostrophe as it is. -/
theorem not_simplePath_agrees :
    ¬∀ (engine : Engine) (parseQueryString : Bool) (url : JSString), numberSign ∉ url →
      (simplePathPattern (trim (replaceBackslashes url))).isSome = true →
        parse engine url parseQueryString false =
          parseGeneral engine (trim (replaceBackslashes url)) parseQueryString false := by
  intro all
  have same := all asciiEngine false (js "/p'q") (by decide) (by decide)
  have differ : parse asciiEngine (js "/p'q") false false ≠
      parseGeneral asciiEngine (trim (replaceBackslashes (js "/p'q"))) false false := by decide
  exact differ same

end IoJs.Url
