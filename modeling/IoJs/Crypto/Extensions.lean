import IoJs.Crypto.HelloRecord

/-!
# What the extensions tell the parser

The parser keeps offsets into the bytes. Here they are read back: what the extensions that are
walked over have said comes to a report, and each extension adds to it.
-/

namespace IoJs.Crypto

open ClientHelloParser List Option

/-! ## Bytes in memory -/

/-- These bytes lie from an offset on. -/
def Memory.Holds (data : Memory) (offset : Nat) (bytes : List UInt8) : Prop :=
  data.bytes offset bytes.length = bytes

namespace Memory

variable {data : Memory} {offset : Nat} {bytes bytes' : List UInt8}

@[simp]
theorem holds_nil : data.Holds offset [] := rfl

theorem holds_append : data.Holds offset (bytes ++ bytes') ↔
    data.Holds offset bytes ∧ data.Holds (offset + bytes.length) bytes' := by
  rw [Holds, length_append, bytes_add]
  constructor
  · intro both
    exact append_inj both (length_bytes data offset _)
  rintro ⟨first, second⟩
  rw [first, second]

@[simp]
theorem holds_cons {byte : UInt8} :
    data.Holds offset (byte :: bytes) ↔ data offset = byte ∧ data.Holds (offset + 1) bytes := by
  rw [← singleton_append, holds_append, Holds, length_singleton, bytes_one, singleton_inj]

theorem Holds.word {n : Nat} (holds : data.Holds offset (Crypto.word n)) (small : n < 2 ^ 16) :
    data.word offset = n := by
  simp only [Crypto.word, holds_cons, holds_nil, and_true] at holds
  rw [Memory.word, holds.1, holds.2, UInt8.toNat_ofNat', UInt8.toNat_ofNat']
  omega

theorem Holds.eq (holds : data.Holds offset bytes) (holds' : data.Holds offset bytes')
    (length : bytes.length = bytes'.length) : bytes = bytes' := by
  rw [← holds, ← holds', length]

theorem holds_word (data : Memory) (offset : Nat) :
    data.Holds offset (Crypto.word (data.word offset)) := by
  have first := (data offset).toNat_lt
  have second := (data (offset + 1)).toNat_lt
  simp only [Crypto.word, Memory.word, holds_cons, holds_nil, and_true]
  constructor
  · apply UInt8.toNat.inj
    rw [UInt8.toNat_ofNat']
    omega
  apply UInt8.toNat.inj
  rw [UInt8.toNat_ofNat']
  omega

theorem word_lt (data : Memory) (offset : Nat) : data.word offset < 2 ^ 16 := by
  have first := (data offset).toNat_lt
  have second := (data (offset + 1)).toNat_lt
  rw [Memory.word]
  omega

end Memory

/-! ## Reports -/

/-- What some extensions say. -/
structure Report where
  name : Option (List UInt8)
  ticket : Option Nat
  ocsp : Bool

/-- The names that the loop over the server names comes to, before an entry of another type or
one that is cut off. -/
def hostNames : Nat → Nat → List UInt8 → List (List UInt8)
  | 0, _, _ => []
  | fuel + 1, left, bytes =>
    if left = 0 then []
    else
      match bytes with
      | type :: hi :: lo :: rest =>
        let size := hi.toNat * 256 + lo.toNat
        if type ≠ kServernameHostname then []
        else if rest.length < size then []
        else rest.take size :: hostNames fuel (left - (3 + size)) (rest.drop size)
      | _ => []

theorem hostNames_done (fuel : Nat) (bytes : List UInt8) : hostNames fuel 0 bytes = [] := by
  cases fuel with
  | zero => rfl
  | succ fuel => simp [hostNames]

theorem hostNames_short (fuel left : Nat) {bytes : List UInt8} (short : bytes.length < 3) :
    hostNames fuel left bytes = [] := by
  cases fuel with
  | zero => rfl
  | succ fuel =>
    rcases bytes with _ | ⟨type, _ | ⟨hi, _ | ⟨lo, rest⟩⟩⟩
    · simp [hostNames]
    · simp [hostNames]
    · simp [hostNames]
    simp at short
    omega

theorem hostNames_cons (fuel : Nat) {left : Nat} (some_left : left ≠ 0) (type hi lo : UInt8)
    (rest : List UInt8) :
    hostNames (fuel + 1) left (type :: hi :: lo :: rest) = if type ≠ kServernameHostname then []
      else if rest.length < hi.toNat * 256 + lo.toNat then []
      else
        rest.take (hi.toNat * 256 + lo.toNat) ::
          hostNames fuel (left - (3 + (hi.toNat * 256 + lo.toNat)))
            (rest.drop (hi.toNat * 256 + lo.toNat)) := by
  rw [hostNames, if_neg some_left]

namespace Extension

/-- The name that is read. -/
def name (e : Extension) : Option (List UInt8) :=
  if e.type = kServerName then
    match e.body with
    | hi :: lo :: names =>
      let size := hi.toNat * 256 + lo.toNat
      if names.length < size then none
      else (hostNames e.body.length size names).getLast?
    | _ => none
  else none

/-- The size of the ticket. -/
def ticket (e : Extension) : Option Nat :=
  if e.type = kTLSSessionTicket then some e.body.length else none

/-- The extension asks for OCSP. -/
def asksOCSP (e : Extension) : Bool :=
  e.type = kStatusRequest ∧ kMinStatusRequestSize ≤ e.body.length ∧
    e.body.head? = some kStatusRequestOCSP

end Extension

/-- One more extension is read. -/
def Report.read (r : Report) (e : Extension) : Report :=
  { name := e.name.or r.name
    ticket := e.ticket.or r.ticket
    ocsp := r.ocsp || e.asksOCSP }

/-- The parser has this to report. -/
structure Reports (data : Memory) (p : ClientHelloParser) (r : Report) : Prop where
  name : p.servername.map (fun offset => data.bytes offset p.servernameSize.toNat) = r.name
  unnamed : p.servername = none → p.servernameSize = 0
  ticket : p.tlsTicket.map (fun _ => p.tlsTicketSize.toNat) = r.ticket
  ocsp : p.ocspRequest ≠ 0 ↔ r.ocsp = true

section Read

variable {data : Memory} {p : ClientHelloParser} {r : Report} {offset base : Nat}

theorem Reports.named (reports : Reports data p r) {size : Nat} (small : size < 2 ^ 16)
    {name : List UInt8} (holds : data.Holds offset name) (length : name.length = size) :
    Reports data { p with servername := some offset, servernameSize := UInt16.ofNat size }
      { r with name := some name } := by
  have exact_ : (UInt16.ofNat size).toNat = name.length := by
    rw [UInt16.toNat_ofNat', Nat.mod_eq_of_lt small, length]
  refine ⟨?_, ?_, reports.ticket, reports.ocsp⟩
  · simp only [map_some, exact_]
    exact congrArg some holds
  intro none
  cases none

theorem reports_serverNames (base len stop fuel : Nat) {bytes : List UInt8}
    (holds : data.Holds (base + offset) bytes) (length : offset + bytes.length = len)
    (reports : Reports data p r) :
    Reports data (serverNames data base len stop fuel offset p)
      { r with name := (hostNames fuel (stop - offset) bytes).getLast?.or r.name } := by
  induction fuel generalizing offset bytes p r with
  | zero => exact reports
  | succ fuel ih =>
    rw [serverNames]
    by_cases more : offset < stop
    · rw [if_pos more]
      by_cases short : bytes.length < 3
      · have cut : offset + 3 > len := by omega
        rw [if_pos cut, hostNames_short _ _ short]
        exact reports
      obtain ⟨type, hi, lo, rest, rfl⟩ : ∃ type hi lo rest, bytes = type :: hi :: lo :: rest := by
        rcases bytes with _ | ⟨type, _ | ⟨hi, _ | ⟨lo, rest⟩⟩⟩
        · simp at short
        · simp at short
        · simp at short
        · exact ⟨type, hi, lo, rest, rfl⟩
      simp only [length_cons] at length
      simp only [Memory.holds_cons] at holds
      obtain ⟨first, second, third, holds⟩ := holds
      have size : data.word (base + offset + 1) = hi.toNat * 256 + lo.toNat := by
        rw [Memory.word, second, third]
      have small := data.word_lt (base + offset + 1)
      have header : ¬ offset + 3 > len := by omega
      rw [size] at small
      rw [if_neg header, first, size, hostNames_cons fuel (by omega)]
      generalize hi.toNat * 256 + lo.toNat = n at small
      by_cases host : type ≠ kServernameHostname
      · rw [if_pos host, if_pos host]
        exact reports
      rw [if_neg host, if_neg host]
      by_cases long : rest.length < n
      · have cut : offset + 3 + n > len := by omega
        rw [if_pos cut, if_pos long]
        exact reports
      have whole : ¬ offset + 3 + n > len := by omega
      have taken : (rest.take n).length = n := length_take_of_le (by omega)
      rw [if_neg whole, if_neg long]
      -- the name and what follows it
      rw [← take_append_drop n rest, Memory.holds_append, taken] at holds
      have named := reports.named small holds.1 taken
      have left : stop - offset - (3 + n) = stop - (offset + 3 + n) := by omega
      have after : base + offset + 1 + 1 + 1 + n = base + (offset + 3 + n) := by omega
      rw [after] at holds
      have rest_length : offset + 3 + n + (rest.drop n).length = len := by
        rw [length_drop]
        omega
      have tail := ih holds.2 rest_length named
      rw [left, List.getLast?_cons, some_or]
      have last : ((hostNames fuel (stop - (offset + 3 + n)) (rest.drop n)).getLast?.or
          (some (rest.take n))) = some
            ((hostNames fuel (stop - (offset + 3 + n)) (rest.drop n)).getLast?.getD
              (rest.take n)) := by
        cases (hostNames fuel (stop - (offset + 3 + n)) (rest.drop n)).getLast? <;> rfl
      rw [last] at tail
      exact tail
    have done : stop - offset = 0 := by omega
    rw [if_neg more, done, hostNames_done]
    exact reports

theorem reports_kServerName (e : Extension) (type : e.type = kServerName)
    (holds : data.Holds base e.body) (reports : Reports data p r) :
    Reports data (parseExtension data e.type base e.body.length p)
      { r with name := e.name.or r.name } := by
  rw [parseExtension, Extension.name, if_pos type, if_pos type]
  rcases body : e.body with _ | ⟨hi, _ | ⟨lo, rest⟩⟩
  · exact reports
  · exact reports
  simp only [body, Memory.holds_cons] at holds
  obtain ⟨first, second, holds⟩ := holds
  have size : data.word base = hi.toNat * 256 + lo.toNat := by rw [Memory.word, first, second]
  have length : ¬ (hi :: lo :: rest).length < 2 := by simp
  rw [if_neg length, size]
  dsimp only
  by_cases cut : rest.length < hi.toNat * 256 + lo.toNat
  · have long : hi.toNat * 256 + lo.toNat + 2 > (hi :: lo :: rest).length := by
      simp only [length_cons]
      omega
    rw [if_pos long, if_pos cut]
    exact reports
  have whole : ¬ hi.toNat * 256 + lo.toNat + 2 > (hi :: lo :: rest).length := by
    simp only [length_cons]
    omega
  have after : 2 + rest.length = (hi :: lo :: rest).length := by
    simp only [length_cons]
    omega
  rw [if_neg whole, if_neg cut]
  have read := reports_serverNames base _ (2 + (hi.toNat * 256 + lo.toNat))
    (hi :: lo :: rest).length holds after reports
  rw [Nat.add_sub_cancel_left] at read
  exact read

theorem reports_kStatusRequest (e : Extension) (type : e.type = kStatusRequest)
    (holds : data.Holds base e.body) (reports : Reports data p r) :
    Reports data (parseExtension data e.type base e.body.length p)
      { r with ocsp := r.ocsp || e.asksOCSP } := by
  have other : ¬ e.type = kServerName := by
    rw [type]
    decide
  rw [parseExtension, if_neg other, if_pos type]
  by_cases short : e.body.length < kMinStatusRequestSize
  · have refused : e.asksOCSP = false := decide_eq_false fun asks => Nat.not_le.mpr short asks.2.1
    rw [if_pos short, refused, Bool.or_false]
    exact reports
  have enough : kMinStatusRequestSize ≤ e.body.length := Nat.le_of_not_lt short
  rw [if_neg short]
  have first : e.body.head? = some (data base) := by
    rcases body : e.body with _ | ⟨first, rest⟩
    · rw [body] at enough
      cases enough
    rw [body, Memory.holds_cons] at holds
    rw [holds.1, List.head?_cons]
  by_cases kind : data base = kStatusRequestOCSP
  · have asks : e.asksOCSP = true := decide_eq_true ⟨type, enough, by rw [first, kind]⟩
    rw [if_neg (not_not.mpr kind), asks, Bool.or_true]
    exact ⟨reports.name, reports.unnamed, reports.ticket, by simp⟩
  have refused : e.asksOCSP = false := by
    apply decide_eq_false
    rintro ⟨-, -, asks⟩
    rw [first, some_inj] at asks
    exact kind asks
  rw [if_pos kind, refused, Bool.or_false]
  exact reports

theorem reports_parseExtension (e : Extension) (holds : data.Holds base e.body)
    (reports : Reports data p r) :
    Reports data (parseExtension data e.type base e.body.length p) (r.read e) := by
  have no_name : e.type ≠ kServerName → e.name = none := fun other => if_neg other
  have no_ticket : e.type ≠ kTLSSessionTicket → e.ticket = none := fun other => if_neg other
  have no_ocsp : e.type ≠ kStatusRequest → e.asksOCSP = false :=
    fun other => decide_eq_false fun asks => other asks.1
  rw [Report.read]
  by_cases names : e.type = kServerName
  · rw [no_ticket (by rw [names]; decide), no_ocsp (by rw [names]; decide), Bool.or_false]
    exact reports_kServerName e names holds reports
  rw [no_name names]
  by_cases status : e.type = kStatusRequest
  · rw [no_ticket (by rw [status]; decide)]
    exact reports_kStatusRequest e status holds reports
  rw [no_ocsp status, Bool.or_false]
  by_cases ticket : e.type = kTLSSessionTicket
  · rw [parseExtension, if_neg names, if_neg status, if_pos ticket, Extension.ticket, if_pos ticket]
    refine ⟨reports.name, reports.unnamed, ?_, reports.ocsp⟩
    simp only [map_some, UInt16.toNat_ofNat', Nat.mod_eq_of_lt e.length_lt, some_or]
  rw [parseExtension, if_neg names, if_neg status, if_neg ticket, no_ticket ticket]
  exact reports

end Read

/-! ## The loop over the extensions -/

section Loop

variable {data : Memory} {avail : Nat} {offset : Nat} {p : ClientHelloParser} {r : Report}

theorem parseExtensions_encodeAll (extensions : List Extension)
    (holds : data.Holds offset (encodeAll extensions))
    (inside : offset + (encodeAll extensions).length ≤ avail) (fuel : Nat)
    (reports : Reports data p r) :
    ∃ q, Reports data q (extensions.foldl Report.read r) ∧
      parseExtensions data avail (fuel + extensions.length) offset p =
        parseExtensions data avail fuel (offset + (encodeAll extensions).length) q := by
  induction extensions generalizing offset p r with
  | nil => exact ⟨p, reports, rfl⟩
  | cons e extensions ih =>
    have split : encodeAll (e :: extensions) = e.encode ++ encodeAll extensions := rfl
    have size := e.length_encode
    rw [split, length_append, size] at inside
    rw [split, Memory.holds_append, size] at holds
    obtain ⟨first, rest⟩ := holds
    rw [Extension.encode, Memory.holds_append, Memory.holds_append] at first
    obtain ⟨⟨type, length⟩, body⟩ := first
    have type' : data.word offset = e.type := type.word e.type_lt
    have length' : data.word (offset + 2) = e.body.length := length.word e.length_lt
    obtain ⟨q, read, eq⟩ := ih rest (by omega) (reports_parseExtension e body reports)
    refine ⟨q, read, ?_⟩
    have more : offset < avail := by omega
    have header : ¬ offset + 4 > avail := by omega
    have whole : ¬ offset + 4 + e.body.length > avail := by omega
    rw [split, length_append, size, ← Nat.add_assoc offset, ← eq, length_cons,
      ← Nat.add_assoc fuel, parseExtensions, if_pos more, if_neg header, type', length']
    rw [if_neg whole, ← Nat.add_assoc offset]
    rfl

theorem parseExtensions_accepts (fuel : Nat) (p : ClientHelloParser)
    (enough : avail ≤ offset + fuel)
    (accepted : (parseExtensions data avail fuel offset p).1 = true) :
    ∃ extensions, data.Holds offset (encodeAll extensions) ∧
      offset + (encodeAll extensions).length = avail := by
  induction fuel generalizing offset p with
  | zero =>
    have le : offset ≤ avail := of_decide_eq_true accepted
    exact ⟨[], Memory.holds_nil, Nat.le_antisymm le enough⟩
  | succ fuel ih =>
    rw [parseExtensions] at accepted
    by_cases more : offset < avail
    · rw [if_pos more] at accepted
      by_cases cut : offset + 4 > avail
      · rw [if_pos cut] at accepted
        cases accepted
      rw [if_neg cut] at accepted
      by_cases long : offset + 4 + data.word (offset + 2) > avail
      · rw [if_pos long] at accepted
        cases accepted
      rw [if_neg long] at accepted
      obtain ⟨extensions, holds, stop⟩ := ih _ (by omega) accepted
      let e : Extension :=
        { type := data.word offset
          body := data.bytes (offset + 4) (data.word (offset + 2))
          type_lt := data.word_lt offset
          length_lt := by
            rw [Memory.length_bytes]
            exact data.word_lt _ }
      have length : e.body.length = data.word (offset + 2) := Memory.length_bytes _ _ _
      have split : encodeAll (e :: extensions) = e.encode ++ encodeAll extensions := rfl
      have size := e.length_encode
      refine ⟨e :: extensions, ?_, ?_⟩
      · rw [split, Memory.holds_append, size, length, ← Nat.add_assoc]
        refine ⟨?_, holds⟩
        rw [Extension.encode, Memory.holds_append, Memory.holds_append, length]
        refine ⟨⟨data.holds_word offset, data.holds_word (offset + 2)⟩, ?_⟩
        rw [Memory.Holds, length]
        rfl
      rw [split, length_append, size, length]
      omega
    rw [if_neg more] at accepted
    have le : offset ≤ avail := of_decide_eq_true accepted
    exact ⟨[], Memory.holds_nil, by simp only [encodeAll, flatMap_nil, length_nil]; omega⟩

theorem parseExtensions_end (fuel : Nat) (p : ClientHelloParser) :
    parseExtensions data avail fuel avail p = (true, p) := by
  cases fuel <;> simp [parseExtensions]

theorem length_le_encodeAll (extensions : List Extension) :
    extensions.length ≤ (encodeAll extensions).length := by
  induction extensions with
  | nil => exact Nat.le_refl _
  | cons e extensions ih =>
    have split : encodeAll (e :: extensions) = e.encode ++ encodeAll extensions := rfl
    rw [split, length_append, e.length_encode, length_cons]
    omega

theorem parseExtensions_whole (extensions : List Extension)
    (holds : data.Holds offset (encodeAll extensions))
    (whole : offset + (encodeAll extensions).length = avail) (reports : Reports data p r) :
    ∃ q, Reports data q (extensions.foldl Report.read r) ∧
      parseExtensions data avail avail offset p = (true, q) := by
  have count := length_le_encodeAll extensions
  obtain ⟨q, read, eq⟩ := parseExtensions_encodeAll extensions holds (Nat.le_of_eq whole)
    (avail - extensions.length) reports
  refine ⟨q, read, ?_⟩
  rw [Nat.sub_add_cancel (by omega), whole, parseExtensions_end] at eq
  exact eq

end Loop

end IoJs.Crypto
