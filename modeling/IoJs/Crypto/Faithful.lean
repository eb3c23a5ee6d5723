import IoJs.Crypto.Extensions
import IoJs.Crypto.FirstRecord

/-!
# The hello that is reported

A parser is used for one handshake after the other. What it reports of a `ClientHello` is what
the hello says, except where the code keeps, cuts or passes over something: `ocsp_request_` is
never reset, the size of the name is cast to a byte, the names after an entry of another type are
not looked at, and what has arrived behind the record is taken for more extensions.
-/

namespace IoJs.Crypto

open ClientHelloParser List Option

/-! ## The record in memory -/

section Layout

variable {data : Memory}

theorem Hello.length_fixed (h : Hello) :
    h.fixed.length = 38 + h.sessionId.length + h.ciphers.length + h.compression.length := by
  simp [Hello.fixed, h.random_length]
  omega

theorem Hello.length_record (h : Hello) : h.record.length = 5 + h.message.length := by
  simp [Hello.record]
  omega

theorem Hello.length_message (h : Hello) : h.message.length = 4 + h.body.length := by
  simp [Hello.message]
  omega

/-- What the bytes of a record are. -/
structure Laid (data : Memory) (h : Hello) : Prop where
  kind : data 0 = kHandshake
  length : data.Holds 3 (word h.message.length)
  hello : data 5 = kClientHello
  major : data 9 = 3
  minor : data 10 = h.version
  sessionSize : data 43 = UInt8.ofNat h.sessionId.length
  session : data.Holds 44 h.sessionId
  ciphers : data.Holds (44 + h.sessionId.length) (word h.ciphers.length)
  compression : data (46 + h.sessionId.length + h.ciphers.length) = UInt8.ofNat h.compression.length
  extensions : h.extensions ≠ none →
    data.Holds (9 + h.fixed.length) (word (encodeAll h.sent).length ++ encodeAll h.sent)

/-- Where a record lies, each of its fields is where the parser looks for it. -/
theorem laid_of_holds {h : Hello} (holds : data.Holds 0 h.record) : Laid data h := by
  rw [Hello.record, Memory.holds_append, Memory.holds_append] at holds
  obtain ⟨⟨header, length⟩, message⟩ := holds
  rw [Hello.message, Memory.holds_append, Memory.holds_append] at message
  obtain ⟨⟨kind, -⟩, body⟩ := message
  have body : data.Holds 9 h.body := body
  have fixed : data.Holds 9 h.fixed := by
    unfold Hello.body at body
    split at body
    · exact body
    rw [Memory.holds_append, Memory.holds_append] at body
    exact body.1.1
  have extensions : h.extensions ≠ none →
      data.Holds (9 + h.fixed.length) (word (encodeAll h.sent).length ++ encodeAll h.sent) := by
    intro present
    unfold Hello.body at body
    split at body
    · rename_i none
      exact absurd none present
    rw [append_assoc, Memory.holds_append] at body
    exact body.2
  simp only [Hello.fixed, Memory.holds_append, Memory.holds_cons, Memory.holds_nil, and_true,
    length_append, length_cons, length_nil, length_word, h.random_length] at fixed
  obtain ⟨⟨⟨⟨⟨⟨major, minor⟩, -⟩, size, session⟩, ciphers⟩, -⟩, compression, -⟩ := fixed
  refine ⟨(Memory.holds_cons.mp header).1, length, (Memory.holds_cons.mp kind).1,
    major, minor, size,
    session, ?_, ?_, extensions⟩
  · have offset : 9 + (0 + 1 + 1 + 32 + (h.sessionId.length + 1)) = 44 + h.sessionId.length := by
      omega
    rw [← offset]
    exact ciphers
  have offset : 9 + (0 + 1 + 1 + 32 + (h.sessionId.length + 1) + 2 + h.ciphers.length) =
      46 + h.sessionId.length + h.ciphers.length := by omega
  rw [← offset]
  exact compression

variable {h : HelloRecord} (laid : Laid data h.toHello)
include laid

theorem Laid.word_length : data.word 3 = h.message.length :=
  laid.length.word (Nat.lt_of_le_of_lt h.message_length (by decide))

theorem Laid.sessionSize_toNat : (data 43).toNat = h.sessionId.length := by
  have short := h.session_length
  rw [laid.sessionSize, UInt8.toNat_ofNat', Nat.mod_eq_of_lt (by omega)]

theorem Laid.extensionOffset_eq : extensionOffset data = 9 + h.fixed.length := by
  have size := laid.sessionSize_toNat
  have ciphers := laid.ciphers.word h.ciphers_length
  have compression := laid.compression
  have fits := h.compression_length
  rw [extensionOffset, size, ciphers, h.length_fixed]
  have offset : 44 + h.sessionId.length + 2 + h.ciphers.length =
      46 + h.sessionId.length + h.ciphers.length := by omega
  simp only [offset, compression, UInt8.toNat_ofNat', Nat.mod_eq_of_lt fits]
  omega

theorem Laid.goodHeader : goodHeader data = true := by
  have length := laid.word_length
  have fits := h.message_length
  have small : data.word 3 < kMaxTLSFrameLen := by
    rw [length, kMaxTLSFrameLen]
    omega
  exact decide_eq_true ⟨.inr (.inr (.inl laid.kind)), small⟩

theorem Laid.badVersion : badVersion data = false := by
  apply decide_eq_false
  rw [laid.major, laid.minor]
  simp only [not_or, not_not, UInt8.not_lt]
  exact ⟨trivial, h.known⟩

omit laid

theorem memoryOf_holds (bytes : List UInt8) : (memoryOf bytes).Holds 0 bytes := by
  apply ext_getElem
  · simp
  intro i _ inside
  simp [Memory.bytes, memoryOf, inside]

theorem HelloRecord.isRecord (h : HelloRecord) : IsRecord h.record := by
  rw [IsRecord, (laid_of_holds (memoryOf_holds h.record)).word_length, h.length_record]

end Layout

/-! ## What has arrived behind the record -/

/-- The bytes behind the record are taken for more extensions. -/
def Follows (h : Hello) (following : List UInt8) (more : List Extension) : Prop :=
  match h.extensions with
  | some _ => following = encodeAll more
  -- without extensions in the record, two bytes are taken for their length
  | none => (following = [] ∧ more = []) ∨
      ∃ length : List UInt8, length.length = 2 ∧ following = length ++ encodeAll more

section Following

variable {data : Memory} {h : HelloRecord} {following : List UInt8} {p : ClientHelloParser}
variable {r : Report}

theorem encodeAll_append (extensions extensions' : List Extension) :
    encodeAll (extensions ++ extensions') = encodeAll extensions ++ encodeAll extensions' :=
  flatMap_append

theorem Hello.length_body_none {h : Hello} (absent : h.extensions = none) :
    h.body = h.fixed ∧ h.sent = [] := by
  simp [Hello.body, absent, Hello.sent]

theorem Hello.length_body_some {h : Hello} (present : h.extensions ≠ none) :
    h.body = h.fixed ++ word (encodeAll h.sent).length ++ encodeAll h.sent := by
  unfold Hello.body
  split
  · rename_i none
    exact absurd none present
  · rfl

/-- The extensions are read one by one, and whole ones behind the hello with them. -/
theorem parseTLSClientHello_follows (holds : data.Holds 0 (h.record ++ following))
    (offset : p.bodyOffset = 5) (reports : Reports data (withSession data p) r)
    {more : List Extension} (follows : Follows h.toHello following more) :
    ∃ q, Reports data q ((h.sent ++ more).foldl Report.read r) ∧
      parseTLSClientHello data (h.record ++ following).length p = (true, q) := by
  obtain ⟨first, rest⟩ := Memory.holds_append.mp holds
  have laid := laid_of_holds first
  have start_ := laid.extensionOffset_eq
  have length := h.length_record
  have message := h.length_message
  rw [length_append]
  cases present : h.extensions with
  | none =>
    rw [Follows, present] at follows
    obtain ⟨body, sent⟩ := Hello.length_body_none present
    rw [body] at message
    rw [sent, nil_append]
    rcases follows with ⟨rfl, rfl⟩ | ⟨size, two, rfl⟩
    · grind [parseTLSClientHello_eq]
    rw [Memory.holds_append, two] at rest
    rw [length_append, two]
    obtain ⟨q, read, eq⟩ := parseExtensions_whole more rest.2 rfl reports
    refine ⟨q, read, ?_⟩
    rw [parseTLSClientHello_eq offset (by omega), if_neg (by omega), ← eq]
    congr 1 <;> omega
  | some =>
    rw [Follows, present] at follows
    have present' : h.extensions ≠ none := by simp [present]
    have extensions := laid.extensions present'
    rw [Memory.holds_append, length_word] at extensions
    rw [Hello.length_body_some present', length_append, length_append, length_word] at message
    have all : data.Holds (9 + h.fixed.length + 2) (encodeAll (h.sent ++ more)) := by
      rw [encodeAll_append, Memory.holds_append]
      refine ⟨extensions.2, ?_⟩
      rw [← follows]
      have offset' : 9 + h.fixed.length + 2 + (encodeAll h.sent).length = 0 + h.record.length := by
        omega
      rw [offset']
      exact rest
    obtain ⟨q, read, eq⟩ := parseExtensions_whole (h.sent ++ more) all rfl reports
    refine ⟨q, read, ?_⟩
    have whole : h.record.length + following.length =
        9 + h.fixed.length + 2 + (encodeAll (h.sent ++ more)).length := by
      rw [encodeAll_append, length_append, follows]
      omega
    rw [whole, parseTLSClientHello_eq offset (by omega), if_neg (by omega), start_]
    exact eq

/-- The parser accepts a hello only if whole extensions follow it. -/
theorem follows_of_accepted (holds : data.Holds 0 (h.record ++ following))
    (offset : p.bodyOffset = 5) (reports : Reports data (withSession data p) r)
    (accepted : (parseTLSClientHello data (h.record ++ following).length p).1 = true) :
    ∃ more, Follows h.toHello following more := by
  obtain ⟨first, rest⟩ := Memory.holds_append.mp holds
  rw [Nat.zero_add] at rest
  have laid := laid_of_holds first
  have start_ := laid.extensionOffset_eq
  have length := h.length_record
  have message := h.length_message
  rw [length_append] at accepted
  cases present : h.extensions with
  | none =>
    obtain ⟨body, -⟩ := Hello.length_body_none present
    rw [body] at message
    simp only [Follows, present]
    by_cases alone : following = []
    · exact ⟨[], .inl ⟨alone, rfl⟩⟩
    have some_more := length_pos_iff.mpr alone
    rw [parseTLSClientHello_eq offset (by omega), if_neg (by omega)] at accepted
    obtain ⟨more, there, stop⟩ := parseExtensions_accepts _ _ (by omega) accepted
    refine ⟨more, .inr ⟨following.take 2, ?_, ?_⟩⟩
    · rw [length_take]
      omega
    have two : (following.take 2).length = 2 := by grind
    rw [← take_append_drop 2 following, Memory.holds_append, two] at rest
    have offset' : h.record.length + 2 = extensionOffset data + 2 := by omega
    rw [offset'] at rest
    have same := rest.2.eq there (by rw [length_drop]; omega)
    simp [← same]
  | some =>
    have present' : h.extensions ≠ none := by simp [present]
    have extensions := laid.extensions present'
    rw [Memory.holds_append, length_word, ← start_] at extensions
    rw [Hello.length_body_some present', length_append, length_append, length_word] at message
    simp only [Follows, present]
    have count := length_le_encodeAll h.sent
    obtain ⟨q, -, eq⟩ := parseExtensions_encodeAll h.sent extensions.2
      (Nat.le_trans (by omega) (Nat.le_add_right h.record.length following.length))
      (h.record.length + following.length - h.sent.length) reports
    rw [Nat.sub_add_cancel (by omega)] at eq
    rw [parseTLSClientHello_eq offset (by omega), if_neg (by omega), eq] at accepted
    obtain ⟨more, there, stop⟩ := parseExtensions_accepts _ _ (by omega) accepted
    refine ⟨more, ?_⟩
    have offset' : extensionOffset data + 2 + (encodeAll h.sent).length = h.record.length := by
      omega
    rw [offset'] at there
    exact rest.eq there (by omega)

end Following

/-! ## What is read of a hello -/

/-- The name that is read: names behind an entry of another type are not. -/
def Request.readName : Request → Option (List UInt8)
  | serverName entries =>
    ((entries.takeWhile fun entry => entry.type = kServernameHostname).map
      ServerName.name).getLast?
  | _ => none

def Hello.readName (h : Hello) : Option (List UInt8) :=
  (h.extensions.getD []).findSome? Request.readName

/-- The size of the ticket, if the request has one. -/
def Request.ticket : Request → Option Nat
  | sessionTicket ticket => some ticket.length
  | _ => none

theorem hostNames_entries (entries : List ServerName) (fuel : Nat)
    (small : (entries.flatMap ServerName.encode).length < 2 ^ 16)
    (enough : entries.length ≤ fuel) :
    hostNames fuel (entries.flatMap ServerName.encode).length
        (entries.flatMap ServerName.encode) =
      (entries.takeWhile fun entry => entry.type = kServernameHostname).map ServerName.name := by
  induction entries generalizing fuel with
  | nil => exact hostNames_short _ _ (by decide)
  | cons entry entries ih =>
    obtain ⟨fuel, rfl⟩ : ∃ n, fuel = n + 1 :=
      Nat.exists_eq_add_one.mpr (Nat.lt_of_lt_of_le (Nat.succ_pos _) enough)
    have encoded : (entry :: entries).flatMap ServerName.encode =
        entry.type :: UInt8.ofNat (entry.name.length / 256) :: UInt8.ofNat entry.name.length ::
          (entry.name ++ entries.flatMap ServerName.encode) := rfl
    rw [encoded] at small ⊢
    simp only [length_cons, length_append] at small enough ⊢
    have size : (UInt8.ofNat (entry.name.length / 256)).toNat * 256 +
        (UInt8.ofNat entry.name.length).toNat = entry.name.length := by
      rw [UInt8.toNat_ofNat', UInt8.toNat_ofNat']
      omega
    rw [hostNames_cons fuel (by omega), size]
    by_cases host : entry.type = kServernameHostname
    · have left : entry.name.length + (entries.flatMap ServerName.encode).length + 1 + 1 + 1 -
          (3 + entry.name.length) = (entries.flatMap ServerName.encode).length := by omega
      rw [if_neg (not_not.mpr host), if_neg (by rw [length_append]; omega),
        take_left', drop_left', left, ih fuel (by omega) (by omega)]
      · simp [host]
      · rfl
      · rfl
    · simp [host]

section Sent

variable {r : Request} {e : Extension}

theorem length_le_entries (entries : List ServerName) :
    entries.length ≤ (entries.flatMap ServerName.encode).length := by
  induction entries with
  | nil => exact Nat.le_refl _
  | cons =>
    simp only [flatMap_cons, length_append, length_cons, ServerName.encode]
    omega

section

variable (type : e.type = r.type) (body : e.body = r.body) (wellFormed : r.WellFormed)
include type body wellFormed

theorem name_sent : e.name = r.readName := by
  by_cases names : r.type = kServerName
  · obtain ⟨entries, rfl⟩ := wellFormed.serverName_of_type names
    have count := length_le_entries entries
    have small : (entries.flatMap ServerName.encode).length < 2 ^ 16 := by
      have fits := wellFormed.1
      simp only [Request.body, length_append, length_word] at fits
      omega
    have size : (UInt8.ofNat ((entries.flatMap ServerName.encode).length / 256)).toNat * 256 +
        (UInt8.ofNat (entries.flatMap ServerName.encode).length).toNat =
          (entries.flatMap ServerName.encode).length := by
      rw [UInt8.toNat_ofNat', UInt8.toNat_ofNat']
      omega
    have bytes : e.body = UInt8.ofNat ((entries.flatMap ServerName.encode).length / 256) ::
          UInt8.ofNat (entries.flatMap ServerName.encode).length ::
            entries.flatMap ServerName.encode := body
    rw [Extension.name, if_pos (type.trans names), bytes]
    dsimp only
    rw [size, if_neg (Nat.lt_irrefl _), hostNames_entries entries _ small
      (by simp only [length_cons]; omega)]
    rfl
  rw [Extension.name, if_neg (type ▸ names)]
  cases r with
  | serverName => exact absurd rfl names
  | statusRequest _ _ => rfl
  | sessionTicket _ => rfl
  | other _ _ => rfl

theorem ticket_sent : e.ticket = r.ticket := by
  by_cases tickets : r.type = kTLSSessionTicket
  · obtain ⟨ticket, rfl⟩ := wellFormed.sessionTicket_of_type tickets
    rw [Extension.ticket, if_pos (type.trans tickets), body]
    rfl
  rw [Extension.ticket, if_neg (type ▸ tickets)]
  cases r with
  | serverName _ => rfl
  | statusRequest _ _ => rfl
  | sessionTicket _ => exact absurd rfl tickets
  | other _ _ => rfl

theorem asksOCSP_sent : e.asksOCSP = r.carriesOCSP := by
  by_cases status : r.type = kStatusRequest
  · obtain ⟨kind, request, rfl⟩ := wellFormed.statusRequest_of_type status
    rw [Extension.asksOCSP, Request.carriesOCSP, decide_eq_decide, body]
    constructor
    · rintro ⟨-, -, first⟩
      exact some.inj first
    intro ocsp
    have long : 4 ≤ request.length := wellFormed.2 ocsp
    refine ⟨type.trans status, Nat.succ_le_succ long, ?_⟩
    rw [← ocsp]
    rfl
  have other : e.asksOCSP = false := decide_eq_false fun asks => status (type.symm.trans asks.1)
  rw [other]
  cases r with
  | serverName _ => rfl
  | statusRequest _ _ => exact absurd rfl status
  | sessionTicket _ => rfl
  | other _ _ => rfl

end

variable {α : Type} (h : Hello)

theorem map_sent {f : Extension → α} {g : Request → α}
    (same : ∀ {r : Request} {e : Extension}, e.type = r.type → e.body = r.body → r.WellFormed →
      f e = g r) :
    h.sent.map f = (h.extensions.getD []).map g := by
  have each : h.sent.map f = (h.extensions.getD []).attach.map (g ∘ Subtype.val) := by
    rw [Hello.sent, List.map_map]
    apply map_congr_left
    intro r _
    exact same rfl rfl (h.requests r.1 r.2)
  rw [each, ← List.map_map, List.attach_map_subtype_val]

theorem names_sent :
    h.sent.filterMap Extension.name = (h.extensions.getD []).filterMap Request.readName := by
  have same := congrArg (List.filterMap id) (map_sent h name_sent)
  rwa [filterMap_map, filterMap_map] at same

theorem tickets_sent :
    h.sent.filterMap Extension.ticket = (h.extensions.getD []).filterMap Request.ticket := by
  have same := congrArg (List.filterMap id) (map_sent h ticket_sent)
  rwa [filterMap_map, filterMap_map] at same

theorem asks_sent : h.sent.any Extension.asksOCSP = h.carriesOCSP := by
  have same := congrArg (List.any · id) (map_sent h asksOCSP_sent)
  rwa [List.any_map, List.any_map] at same

theorem length_filterMap_le_one {f : Request → Option α} (type : Nat)
    (only : ∀ r, (f r).isSome = true → r.type = type) :
    ((h.extensions.getD []).filterMap f).length ≤ 1 := by
  rw [length_filterMap_eq_countP]
  calc (h.extensions.getD []).countP (fun r => (f r).isSome)
      ≤ (h.extensions.getD []).countP (fun r => r.type == type) := by
        apply countP_mono_left
        intro r _ some_
        simp [only r some_]
    _ = ((h.extensions.getD []).map Request.type).count type := by
        rw [List.count, countP_map]
        rfl
    _ ≤ 1 := nodup_iff_count_le_one.mp h.distinct type

end Sent

theorem head_eq_last {α : Type} {l : List α} (one : l.length ≤ 1) : l.head? = l.getLast? := by
  rcases l with _ | ⟨a, _ | ⟨b, l⟩⟩
  · rfl
  · rfl
  · simp at one

theorem Hello.readName_eq (h : Hello) :
    (h.sent.filterMap Extension.name).getLast? = h.readName := by
  have one := length_filterMap_le_one h (f := Request.readName) kServerName (by
    intro r some_
    cases r with
    | serverName _ => rfl
    | statusRequest _ _ => cases some_
    | sessionTicket _ => cases some_
    | other _ _ => cases some_)
  rw [names_sent, ← head_eq_last one, List.head?_filterMap]
  rfl

theorem Hello.hasTicket_eq (h : Hello) :
    (h.sent.filterMap Extension.ticket).getLast?.any (· ≠ 0) = h.hasTicket := by
  have one := length_filterMap_le_one h (f := Request.ticket) kTLSSessionTicket (by
    intro r some_
    cases r with
    | serverName _ => cases some_
    | statusRequest _ _ => cases some_
    | sessionTicket _ => rfl
    | other _ _ => cases some_)
  have all : h.hasTicket = ((h.extensions.getD []).filterMap Request.ticket).any (· ≠ 0) := by
    rw [Hello.hasTicket, any_filterMap]
    congr 1
    funext r
    cases r with
    | serverName _ => rfl
    | statusRequest _ _ => rfl
    | sessionTicket => simp [Request.hasTicket, Request.ticket]
    | other _ _ => rfl
  rw [tickets_sent, all]
  rcases tickets : (h.extensions.getD []).filterMap Request.ticket with _ | ⟨size, _ | ⟨size', l⟩⟩
  · rfl
  · simp
  rw [tickets] at one
  simp at one

/-! ## Reading one extension after the other -/

section Fold

variable (extensions : List Extension) (r : Report)

theorem read_name : (extensions.foldl Report.read r).name =
    (extensions.filterMap Extension.name).getLast?.or r.name := by
  induction extensions generalizing r with
  | nil => rfl
  | cons e extensions ih =>
    rw [foldl_cons, ih, Report.read]
    cases name : e.name with
    | none => simp [name]
    | some => simp [name, List.getLast?_cons]

theorem read_ticket : (extensions.foldl Report.read r).ticket =
    (extensions.filterMap Extension.ticket).getLast?.or r.ticket := by
  induction extensions generalizing r with
  | nil => rfl
  | cons e extensions ih =>
    rw [foldl_cons, ih, Report.read]
    cases ticket : e.ticket with
    | none => simp [ticket]
    | some size => simp [ticket, List.getLast?_cons]

theorem read_ocsp :
    (extensions.foldl Report.read r).ocsp = (r.ocsp || extensions.any Extension.asksOCSP) := by
  induction extensions generalizing r with
  | nil => simp
  | cons e extensions ih => rw [foldl_cons, ih, Report.read, any_cons, Bool.or_assoc]

end Fold

/-! ## Faithful reports -/

/-- The report says what the hello says. -/
structure Faithful (h : Hello) (report : ClientHello) : Prop where
  sessionId : report.sessionId = some h.sessionId
  sessionSize : report.sessionSize.toNat = h.sessionId.length
  servername : report.servername = h.hostName
  servernameSize : report.servernameSize.toNat = (h.hostName.map List.length).getD 0
  hasTicket : report.hasTicket = h.hasTicket
  ocspRequest : report.ocspRequest ≠ 0 ↔ h.carriesOCSP = true

/-- The name, cut to its size as a byte. -/
def cut (name : List UInt8) : List UInt8 := name.take (name.length % 256)

section Report

variable {data : Memory} {q : ClientHelloParser} {r : Report}

section

variable (reports : Reports data q r)
include reports

theorem Reports.servername : (hello data q).servername = r.name.map cut := by
  rw [← reports.name, Option.map_map]
  simp only [hello]
  congr 1
  funext offset
  simp only [Function.comp_apply, cut, Memory.length_bytes, UInt16.toNat_toUInt8]
  exact Memory.bytes_take (Nat.mod_le _ _)

theorem Reports.servernameSize :
    (hello data q).servernameSize.toNat = ((r.name.map cut).map List.length).getD 0 := by
  rw [← reports.name]
  simp only [hello, UInt16.toNat_toUInt8]
  cases name : q.servername with
  | none =>
    rw [reports.unnamed name]
    rfl
  | some =>
    simp only [map_some, getD_some, cut, Memory.length_bytes, length_take]
    omega

theorem Reports.hasTicket : (hello data q).hasTicket = r.ticket.any (· ≠ 0) := by
  rw [← reports.ticket]
  simp only [hello]
  cases q.tlsTicket with
  | none => rfl
  | some => simp [← UInt16.toNat_inj, bne, BEq.beq]

theorem Reports.faithful_iff {h : HelloRecord}
    (laid : Laid data h.toHello) (size : q.sessionSize = data 43) (id : q.sessionId = some 44) :
    Faithful h.toHello (hello data q) ↔
      r.name.map cut = h.hostName ∧ r.ticket.any (· ≠ 0) = h.hasTicket ∧
        r.ocsp = h.carriesOCSP := by
  constructor
  · intro faithful
    refine ⟨?_, ?_, ?_⟩
    · rw [← reports.servername, faithful.servername]
    · rw [← reports.hasTicket, faithful.hasTicket]
    rw [Bool.eq_iff_iff, ← reports.ocsp, ← faithful.ocspRequest]
    rfl
  rintro ⟨name, ticket, ocsp⟩
  have length := laid.sessionSize_toNat
  refine ⟨?_, ?_, ?_, ?_, ?_, ?_⟩
  · simp only [hello, id, map_some, size, length]
    exact congrArg some laid.session
  · simp only [hello, size, length]
  · rw [reports.servername, name]
  · rw [reports.servernameSize, name]
  · rw [reports.hasTicket, ticket]
  rw [← ocsp, ← reports.ocsp]
  rfl

end

end Report

/-! ## One handshake after the other -/

/-- `Start`, some calls of `Parse`, and `End` -/
structure Cycle where
  onend : Bool
  calls : List Segment

/-- The parser after a cycle. -/
def cycle (p : ClientHelloParser) (c : Cycle) : ClientHelloParser :=
  (end_ (c.calls.foldl (fun p call => (parse call.data call.avail p).1) (start p c.onend))).1

/-- The parser after some cycles. -/
def replay (history : List Cycle) : ClientHelloParser := history.foldl cycle new

theorem end_ended (p : ClientHelloParser) : (end_ p).1.state = .ended := by
  unfold end_
  split
  · assumption
  · rfl

theorem replay_ended (history : List Cycle) : (replay history).state = .ended := by
  induction history using List.reverseRecOn with
  | nil => rfl
  | append_singleton =>
    rw [replay, foldl_append]
    exact end_ended _

/-- The report of the hello is the hello. -/
structure Reportable (before : UInt8) (h : Hello) (more : List Extension) : Prop where
  /-- OCSP is asked for, or neither an earlier hello nor anything behind the record asks for it -/
  ocsp : h.carriesOCSP = true ∨ (before = 0 ∧ ∀ e ∈ more, e.asksOCSP = false)
  /-- the last ticket behind the record is empty or not as that of the hello is -/
  ticket : ∀ size, (more.filterMap Extension.ticket).getLast? = some size →
    decide (size ≠ 0) = h.hasTicket
  /-- the name that is read, cut to its size as a byte, is the last host name -/
  name : ((more.filterMap Extension.name).getLast?.or h.readName).map cut = h.hostName

theorem reportable_iff (before : UInt8) (h : Hello) (more : List Extension) {r : Report}
    (read : r = (h.sent ++ more).foldl Report.read ⟨none, none, decide (before ≠ 0)⟩) :
    Reportable before h more ↔ r.name.map cut = h.hostName ∧ r.ticket.any (· ≠ 0) = h.hasTicket ∧
        r.ocsp = h.carriesOCSP := by
  have name : r.name = (more.filterMap Extension.name).getLast?.or h.readName := by
    simp [read, read_name, h.readName_eq]
  have ticket : r.ticket = (more.filterMap Extension.ticket).getLast?.or
      (h.sent.filterMap Extension.ticket).getLast? := by
    simp [read, read_ticket]
  have ocsp : r.ocsp = (decide (before ≠ 0) || (h.carriesOCSP || more.any Extension.asksOCSP)) := by
    rw [read, read_ocsp, any_append, asks_sent]
  have tickets : r.ticket.any (· ≠ 0) = h.hasTicket ↔
      ∀ size, (more.filterMap Extension.ticket).getLast? = some size →
        decide (size ≠ 0) = h.hasTicket := by
    rw [ticket]
    cases last : (more.filterMap Extension.ticket).getLast? with
    | none =>
      rw [none_or, h.hasTicket_eq]
      simp
    | some size => simp
  have asks : r.ocsp = h.carriesOCSP ↔
      h.carriesOCSP = true ∨ (before = 0 ∧ ∀ e ∈ more, e.asksOCSP = false) := by
    rw [ocsp]
    cases h.carriesOCSP with
    | true => simp
    | false => simp
  rw [name, tickets, asks]
  constructor
  · rintro ⟨ocsp, ticket, name⟩
    exact ⟨name, ticket, ocsp⟩
  rintro ⟨name, ticket, ocsp⟩
  exact ⟨ocsp, ticket, name⟩

/-! ## The handshake -/

section Handshake

variable {p : ClientHelloParser} {h : HelloRecord} {following : List UInt8}

theorem Segment.Shows.holds {stream : List UInt8} {segment : Segment}
    (shows_ : segment.Shows stream) (all : segment.avail = stream.length) :
    segment.data.Holds 0 stream := by
  apply ext_getElem
  · simp
  intro i _ inside
  have byte := shows_.2 i (all ▸ inside)
  rw [List.getElem?_eq_getElem inside, some_inj] at byte
  simp [Memory.bytes, byte]

theorem outcome_append (p : ClientHelloParser) (segments later : List Segment)
    (decided : outcome p segments ≠ .undecided) (waiting : p.state ≠ .ended) :
    outcome p (segments ++ later) = outcome p segments := by
  induction segments generalizing p with
  | nil =>
    rw [outcome, if_neg waiting] at decided
    exact absurd rfl decided
  | cons segment segments ih =>
    rw [cons_append, outcome, outcome]
    by_cases undecided : outcomeOf (parse segment.data segment.avail p) = .undecided
    · rw [outcome] at decided
      rw [if_pos undecided] at decided
      rw [if_pos undecided, if_pos undecided]
      apply ih _ decided
      intro ended
      rcases result : parse segment.data segment.avail p with ⟨q, _ | _ | _⟩
      · rw [result] at undecided ended
        have stopped : q.state = .ended := ended
        simp [outcomeOf, stopped] at undecided
      · rw [result] at undecided
        cases undecided
      rw [result] at undecided ended
      have stopped : q.state = .ended := ended
      simp [outcomeOf, stopped] at undecided
    · simp [undecided]

theorem outcome_hello (waiting : p.state = .waiting) {earlier later : List Segment}
    {last : Segment} (arrives : Arrives h.record following (earlier ++ [last]))
    (early : ∀ segment ∈ earlier, segment.avail < h.record.length)
    (all : last.avail = (h.record ++ following).length) :
    outcome p (earlier ++ last :: later) =
      if (parseTLSClientHello last.data last.avail (headed p h.message.length)).1 then
        .hello (hello last.data
          (parseTLSClientHello last.data last.avail (headed p h.message.length)).2)
      else .ended := by
  have laid := laid_of_holds (memoryOf_holds h.record)
  have size := h.length_record
  have member : last ∈ earlier ++ [last] := mem_append_right _ (mem_singleton_self _)
  have holds := (arrives.shows last member).holds all
  have laid' := laid_of_holds (Memory.holds_append.mp holds).1
  have short : last.data 43 ≤ 32 := by
    have bound := h.session_length
    rw [UInt8.le_iff_toNat_le, laid'.sessionSize_toNat]
    exact bound
  have covered : 5 + h.message.length ≤ last.avail := by
    rw [all, length_append]
    omega
  obtain ⟨segment, member', long, eq⟩ := outcome_eq waiting h.isRecord laid.goodHeader _
    arrives.shows arrives.complete p (.inl rfl)
  obtain rfl : segment = last := by
    rcases mem_append.mp member' with before | here
    · exact absurd (early segment before) (Nat.not_lt.mpr long)
    · exact mem_singleton.mp here
  rw [laid.word_length] at eq
  have decided : outcome p (earlier ++ [segment]) ≠ .undecided := by
    rw [eq]
    exact outcomeOf_parseHeader_ne covered
  have split : earlier ++ segment :: later = (earlier ++ [segment]) ++ later := by simp
  rw [split, outcome_append p _ later decided (by rw [waiting]; decide), eq,
    outcomeOf_parseHeader covered, laid'.badVersion, if_neg Bool.false_ne_true,
    if_pos laid'.hello, acceptsHello_eq, decide_eq_true short, Bool.and_true]

theorem reports_start (history : List Cycle) (onend : Bool) (frameLen : Nat) (data : Memory) :
    Reports data (withSession data (headed (start (replay history) onend) frameLen))
      ⟨none, none, decide ((replay history).ocspRequest ≠ 0)⟩ := by
  have ended := replay_ended history
  refine ⟨?_, ?_, ?_, ?_⟩ <;> simp [withSession, headed, start, reset, ended]

/-- A hello is reported as it is, after whatever cycles, if and only if nothing of an earlier
hello, nothing behind the record, no entry of another type and no cut gets in the way. -/
theorem hello_faithful (history : List Cycle) (onend : Bool) (h : HelloRecord)
    {following : List UInt8} {earlier later : List Segment} {last : Segment}
    (arrives : Arrives h.record following (earlier ++ [last]))
    (early : ∀ segment ∈ earlier, segment.avail < h.record.length)
    (all : last.avail = (h.record ++ following).length) :
    (∀ report, outcome (start (replay history) onend) (earlier ++ last :: later) = .hello report →
      Faithful h.toHello report) ↔
      ∀ more, Follows h.toHello following more →
        Reportable (replay history).ocspRequest h.toHello more := by
  have waiting := start_waiting (replay_ended history) onend
  have member : last ∈ earlier ++ [last] := mem_append_right _ (mem_singleton_self _)
  have holds := (arrives.shows last member).holds all
  have laid := laid_of_holds (Memory.holds_append.mp holds).1
  have reports := reports_start history onend h.message.length last.data
  -- a report is faithful as the extensions that are read make it
  have read : ∀ more, Follows h.toHello following more → ∃ q,
      parseTLSClientHello last.data last.avail
        (headed (start (replay history) onend) h.message.length) = (true, q) ∧
      (Faithful h.toHello (hello last.data q) ↔
        Reportable (replay history).ocspRequest h.toHello more) := by
    intro more follows
    obtain ⟨q, reports', eq⟩ := parseTLSClientHello_follows holds rfl reports follows
    rw [← all] at eq
    have parsed : (parseTLSClientHello last.data last.avail
        (headed (start (replay history) onend) h.message.length)).1 = true := by rw [eq]
    have session := parseTLSClientHello_session rfl parsed
    rw [eq] at session
    refine ⟨q, eq, ?_⟩
    rw [reports'.faithful_iff laid session.1 session.2, reportable_iff _ _ _ rfl]
  rw [outcome_hello waiting arrives early all]
  constructor
  · intro faithful more follows
    obtain ⟨q, eq, iff⟩ := read more follows
    apply iff.mp
    apply faithful
    rw [eq, if_pos rfl]
  intro reportable report reported
  by_cases accepted : (parseTLSClientHello last.data last.avail
      (headed (start (replay history) onend) h.message.length)).1 = true
  · obtain ⟨more, follows⟩ := follows_of_accepted holds rfl reports (all ▸ accepted)
    obtain ⟨q, eq, iff⟩ := read more follows
    rw [eq, if_pos rfl, Outcome.hello.injEq] at reported
    rw [← reported]
    exact iff.mpr (reportable more follows)
  · simp [accepted] at reported

end Handshake

/-- A hello that asks for OCSP, with a name, a ticket and a session. -/
def askingHello : HelloRecord where
  recordVersion := 1
  version := 3
  random := List.replicate 32 0
  sessionId := [1, 2, 3]
  ciphers := [0, 47]
  compression := [0]
  extensions := some [.serverName [⟨kServernameHostname, [97, 98]⟩],
    .statusRequest kStatusRequestOCSP [0, 0, 0, 0], .sessionTicket [7]]
  known := by decide
  random_length := rfl
  session_length := by decide
  ciphers_length := by decide
  compression_length := by decide
  requests := by
    intro r member
    simp only [Option.getD_some, mem_cons, not_mem_nil, or_false] at member
    rcases member with rfl | rfl | rfl
    · exact ⟨by decide, trivial⟩
    · exact ⟨by decide, fun _ => by decide⟩
    · exact ⟨by decide, trivial⟩
  distinct := by decide
  extensions_length := by decide
  message_length := by decide

/-- A hello without extensions. -/
def silentHello : HelloRecord where
  recordVersion := 1
  version := 3
  random := List.replicate 32 0
  sessionId := []
  ciphers := [0, 47]
  compression := [0]
  extensions := none
  known := by decide
  random_length := rfl
  session_length := by decide
  ciphers_length := by decide
  compression_length := by decide
  requests := fun r member => absurd member not_mem_nil
  distinct := by decide
  extensions_length := by decide
  message_length := by decide

/-- All of a stream in one call. -/
def wholeCall (stream : List UInt8) : Segment := ⟨stream.length, memoryOf stream⟩

theorem arrives_wholeCall (record : List UInt8) : Arrives record [] ([] ++ [wholeCall record]) := by
  have arrives := arrives_once (fun i _ => rfl) (Nat.le_refl record.length)
  rwa [Nat.sub_self] at arrives

/-- A parser that has reported a hello with a name, a ticket and a session reports one again. -/
theorem hello_faithful_again : ∃ report,
    outcome (start (replay [⟨true, [wholeCall askingHello.record]⟩]) true)
        [wholeCall askingHello.record] = .hello report ∧
      Faithful askingHello.toHello report := by
  have faithful : ∀ report, outcome (start (replay [⟨true, [wholeCall askingHello.record]⟩]) true)
      [wholeCall askingHello.record] = .hello report → Faithful askingHello.toHello report := by
    refine (hello_faithful _ true askingHello (arrives_wholeCall _)
      nofun rfl).mpr ?_
    intro more follows
    have nothing : more = [] := by
      rcases more with _ | ⟨e, more⟩
      · rfl
      have empty := congrArg length follows
      simp [encodeAll, e.length_encode] at empty
      omega
    subst nothing
    exact ⟨.inl (by decide), by rintro size ⟨⟩, by decide⟩
  have reported : outcome (start (replay [⟨true, [wholeCall askingHello.record]⟩]) true)
      [wholeCall askingHello.record] = .hello ⟨3, some [1, 2, 3], true, 2, some [97, 98], 1⟩ := by
    decide +kernel
  exact ⟨_, reported, faithful _ reported⟩

/-- After a hello that asked for OCSP, a hello that does not is reported to ask for it. -/
theorem ocsp_request_kept : ∃ report,
    outcome (start (replay [⟨true, [wholeCall askingHello.record]⟩]) true)
      [wholeCall silentHello.record] = .hello report ∧
    silentHello.carriesOCSP = false ∧ report.ocspRequest = 1 ∧
    ¬ Faithful silentHello.toHello report := by
  refine ⟨⟨0, some [], false, 0, none, 1⟩, by decide, by decide, rfl, ?_⟩
  intro faithful
  exact absurd (faithful.ocspRequest.mp (by decide)) (by decide)

end IoJs.Crypto
