import IoJs.Buffer

/-!
# Buffers of TLS

`ClearOut` passes on what `SSL_read` has decrypted, in the buffers that its consumer allocates; it
copies from the start of its own buffer each time, so a result that is split is passed on whole only
where it repeats itself (`clearOut_iff`). `convertNPNProtocols` has one byte for the length of a
name (`convertNPNProtocols_iff`).
-/

namespace IoJs.Tls

open IoJs.Stream IoJs.Buffer List
open IoJs.RegExp (js)

/-! ## `ClearOut` -/

section ClearOut

variable (alloc : Nat → Nat)

/-- The inner loop, while `read` bytes are left of a result; `alloc` is what `OnAlloc` returns, by
the number of calls so far, and the buffers go to `OnRead`. -/
def passOn (out : List UInt8) : Nat → Nat → Nat → List (List UInt8) × Nat
  | 0, i, _ => ([], i)
  | fuel + 1, i, read =>
    if 0 < read then
      let avail := if alloc i < read then alloc i else read
      -- `memcpy(buf.base, out, avail)`
      let (buffers, i) := passOn out fuel (i + 1) (read - avail)
      (out.take avail :: buffers, i)
    else ([], i)

/-- The loop of `ClearOut`, over the results of `SSL_read` -/
def clearOutLoop : Nat → List (List UInt8) → List (List UInt8)
  | _, [] => []
  | i, out :: reads =>
    let (buffers, i) := passOn alloc out out.length i out.length
    buffers ++ clearOutLoop i reads

/-- `TLSWrap::ClearOut`: what `SSL_read` has returned, and the buffers that are passed on -/
def clearOut (helloEnded eof : Bool) (reads : List (List UInt8)) :
    List (List UInt8) × List (List UInt8) :=
  if !helloEnded || eof then ([], []) else (reads, clearOutLoop alloc 0 reads)

/-- What belongs in a buffer is what is at the start of the result, for each buffer of it. -/
def Repeats (out : List UInt8) : Nat → Nat → Nat → Prop
  | 0, _, _ => True
  | fuel + 1, i, read =>
    0 < read → let avail := if alloc i < read then alloc i else read
      (out.drop (out.length - read)).take avail = out.take avail ∧
        Repeats out fuel (i + 1) (read - avail)

/-- This for each result of `SSL_read` -/
def AllRepeat : Nat → List (List UInt8) → Prop
  | _, [] => True
  | i, out :: reads =>
    Repeats alloc out out.length i out.length ∧
      AllRepeat (passOn alloc out out.length i out.length).2 reads

variable {alloc} {out : List UInt8}

/-- As many bytes are passed on as were read, and the same exactly if they repeat. -/
theorem passOn_iff (positive : ∀ i, 0 < alloc i) (fuel i : Nat) {read : Nat} (le : read ≤ fuel)
    (inside : read ≤ out.length) :
    (passOn alloc out fuel i read).1.flatten.length = read ∧
      ((passOn alloc out fuel i read).1.flatten = out.drop (out.length - read) ↔
        Repeats alloc out fuel i read) := by
  induction fuel generalizing i read with
  | zero =>
    obtain rfl := Nat.le_zero.mp le
    simp [passOn, Repeats]
  | succ fuel ih =>
    by_cases more : 0 < read
    · rw [passOn, if_pos more, Repeats]
      have some_ := positive i
      generalize size : (if alloc i < read then alloc i else read) = avail
      dsimp only
      have avail_le : 0 < avail ∧ avail ≤ read := by
        rw [← size]
        split_ifs <;> omega
      obtain ⟨length, iff⟩ := ih (i + 1) (show read - avail ≤ fuel by omega) (by omega)
      have next : out.length - (read - avail) = out.length - read + avail := by omega
      have taken : (out.take avail).length = avail := by
        rw [length_take]
        omega
      have due : ((out.drop (out.length - read)).take avail).length = avail := by
        rw [length_take, length_drop]
        omega
      constructor
      · rw [flatten_cons, length_append, taken, length]
        omega
      rw [forall_prop_of_true more, ← iff, next, flatten_cons, ← drop_drop]
      constructor
      · intro same
        have parts := append_inj (same.trans (take_append_drop avail _).symm)
          (taken.trans due.symm)
        exact ⟨parts.1.symm, parts.2⟩
      rintro ⟨here, rest⟩
      rw [rest, ← here, take_append_drop]
    rw [passOn, if_neg more, Repeats]
    have none_ : read = 0 := by omega
    simp [none_]

/-- **When `ClearOut` is faithful**: a buffer that begins inside of a result has to hold what the
result begins with. -/
theorem clearOut_iff (alloc : Nat → Nat) (positive : ∀ i, 0 < alloc i) (helloEnded eof : Bool)
    (reads : List (List UInt8)) :
    (clearOut alloc helloEnded eof reads).2.flatten =
      (clearOut alloc helloEnded eof reads).1.flatten ↔
      (helloEnded = true ∧ eof = false → AllRepeat alloc 0 reads) := by
  have loop : ∀ i, (clearOutLoop alloc i reads).flatten = reads.flatten ↔
    AllRepeat alloc i reads := by
    induction reads with
    | nil => simp [clearOutLoop, AllRepeat]
    | cons out reads ih =>
      intro i
      obtain ⟨length, iff⟩ := @passOn_iff alloc out positive out.length i _ (Nat.le_refl _)
        (Nat.le_refl _)
      rw [Nat.sub_self, drop_zero] at iff
      rw [clearOutLoop, AllRepeat, ← iff, ← ih, flatten_append, flatten_cons]
      constructor
      · exact fun same => append_inj same length
      · exact fun both => congrArg₂ _ both.1 both.2
  cases helloEnded <;> cases eof <;> simp [clearOut, loop]

/-- A result in one buffer, and one in two that are alike -/
theorem clearOut_whole :
    (clearOut (fun i => if i = 0 then 9 else 1) true false [[1, 2, 3], [4, 4]]).2.flatten =
      [1, 2, 3, 4, 4] := by
  have pos : ∀ i, 0 < if i = 0 then 9 else 1 := fun i => by split <;> decide
  refine (clearOut_iff (fun i => if i = 0 then 9 else 1) pos true false [[1, 2, 3], [4, 4]]).mpr ?_
  simp [AllRepeat, Repeats, passOn]

/-- A result that is split -/
theorem not_clearOut :
    ¬∀ (alloc : Nat → Nat), (∀ i, 0 < alloc i) → ∀ helloEnded eof (reads : List (List UInt8)),
      (clearOut alloc helloEnded eof reads).2.flatten =
        (clearOut alloc helloEnded eof reads).1.flatten := by
  intro all
  have here := all (fun _ => 2) (fun _ => by decide) true false [[1, 2, 3]]
  exact absurd here (by decide)

end ClearOut

/-! ## Names of protocols -/

/-- Bytes that are stored in a buffer, as many as there is room for -/
def put (buff : List UInt8) (offset : Nat) (bytes : List UInt8) : List UInt8 :=
  buff.take offset ++ bytes.take (buff.length - offset) ++ buff.drop (offset + bytes.length)

/-- The first `reduce` of `convertNPNProtocols` -/
def sizeOfProtocols (names : List JSString) : Nat :=
  names.foldl (fun p c => p + 1 + byteLength c none) 0

/-- `exports.convertNPNProtocols` of an array, with what was in the memory of the buffer -/
def convertNPNProtocols (memory : Nat → UInt8) (names : List JSString) : List UInt8 :=
  let buff := (List.range (sizeOfProtocols names)).map memory
  (names.foldl (fun (buff, offset) c =>
    let clen := byteLength c none
    (put (put buff offset [UInt8.ofNat clen]) (offset + 1) (utf8Write c), offset + 1 + clen))
    (buff, 0)).1

/-- The names behind their lengths -/
def readProtocols : Nat → List UInt8 → Option (List (List UInt8))
  | _, [] => some []
  | 0, _ => none
  | fuel + 1, n :: rest =>
    if n.toNat ≤ rest.length then
      (readProtocols fuel (rest.drop n.toNat)).map (rest.take n.toNat :: ·)
    else none

/-- What is stored for a name -/
def protocolEntry (c : JSString) : List UInt8 := UInt8.ofNat (byteLength c none) :: utf8Write c

theorem byteLength_none (c : JSString) : byteLength c none = (utf8Write c).length := by rfl

theorem sizeOfProtocols_eq (names : List JSString) :
    sizeOfProtocols names = (names.flatMap protocolEntry).length := by
  have run : ∀ p, names.foldl (fun p c => p + 1 + byteLength c none) p =
      p + (names.flatMap protocolEntry).length := by
    induction names with
    | nil => exact fun p => rfl
    | cons c names ih =>
      intro p
      rw [foldl_cons, ih, flatMap_cons, length_append, protocolEntry, length_cons, byteLength_none]
      omega
  rw [sizeOfProtocols, run, Nat.zero_add]

theorem put_append (front bytes : List UInt8) {rest : List UInt8}
    (fits : bytes.length ≤ rest.length) :
    put (front ++ rest) front.length bytes = front ++ bytes ++ rest.drop bytes.length := by
  simp [put, take_of_length_le fits]

/-- The entries of all names are written one behind the other. -/
theorem convertNPNProtocols_eq (memory : Nat → UInt8) (names : List JSString) :
    convertNPNProtocols memory names = names.flatMap protocolEntry := by
  have run : ∀ (names : List JSString) (front rest : List UInt8),
      rest.length = (names.flatMap protocolEntry).length → (names.foldl (fun (buff, offset) c =>
          let clen := byteLength c none
          (put (put buff offset [UInt8.ofNat clen]) (offset + 1) (utf8Write c), offset + 1 + clen))
          (front ++ rest, front.length)).1 = front ++ names.flatMap protocolEntry := by
    intro names
    induction names with
    | nil =>
      intro front rest length
      rw [eq_nil_of_length_eq_zero length]
      rfl
    | cons c names ih =>
      intro front rest length
      rw [flatMap_cons, length_append, protocolEntry, length_cons] at length
      have first : [UInt8.ofNat (byteLength c none)].length ≤ rest.length := by
        rw [length_singleton]
        omega
      have second : (utf8Write c).length ≤ (rest.drop 1).length := by
        rw [length_drop]
        omega
      have at_ : front.length + 1 = (front ++ [UInt8.ofNat (byteLength c none)]).length := by simp
      have stored := put_append (front ++ [UInt8.ofNat (byteLength c none)]) (utf8Write c) second
      have ends : front.length + 1 + byteLength c none =
          (front ++ [UInt8.ofNat (byteLength c none)] ++ utf8Write c).length := by
        simp [byteLength_none]
        omega
      rw [foldl_cons]
      simp only [put_append front _ first, length_singleton]
      rw [at_, stored, ← at_, ends, ih _ _ (by rw [length_drop, length_drop]; omega),
        flatMap_cons, protocolEntry]
      simp
  have length : ((List.range (sizeOfProtocols names)).map memory).length =
      (names.flatMap protocolEntry).length := by simp [sizeOfProtocols_eq]
  exact run names [] _ length

theorem readProtocols_entry {c : JSString} (fuel : Nat) (rest : List UInt8) :
    readProtocols (fuel + 1) (protocolEntry c ++ rest) =
      (readProtocols fuel ((utf8Write c ++ rest).drop ((utf8Write c).length % 256))).map
        ((utf8Write c).take ((utf8Write c).length % 256) :: ·) := by
  have value : (UInt8.ofNat (byteLength c none)).toNat = (utf8Write c).length % 256 := by
    rw [UInt8.toNat_ofNat', byteLength_none]
  have le : (utf8Write c).length % 256 ≤ (utf8Write c).length := Nat.mod_le _ _
  rw [protocolEntry, cons_append, readProtocols, value, if_pos (by rw [length_append]; omega),
    take_append_of_le_length le]

/-- **When names of protocols are encoded faithfully**: none of them has more than 255 bytes. -/
theorem convertNPNProtocols_iff (memory : Nat → UInt8) (names : List JSString) :
    readProtocols (convertNPNProtocols memory names).length (convertNPNProtocols memory names) =
        some (names.map utf8Write) ↔
      ∀ c ∈ names, (utf8Write c).length < 256 := by
  have run : ∀ (names : List JSString) (fuel : Nat), (names.flatMap protocolEntry).length ≤ fuel →
      (readProtocols fuel (names.flatMap protocolEntry) = some (names.map utf8Write) ↔
        ∀ c ∈ names, (utf8Write c).length < 256) := by
    intro names
    induction names with
    | nil =>
      intro fuel _
      cases fuel <;> simp [readProtocols]
    | cons c names ih =>
      intro fuel le
      rw [flatMap_cons, length_append, protocolEntry, length_cons] at le
      obtain ⟨fuel, rfl⟩ : ∃ n, fuel = n + 1 := ⟨fuel - 1, by omega⟩
      rw [flatMap_cons, readProtocols_entry, forall_mem_cons, map_cons, Option.map_eq_some_iff]
      constructor
      · rintro ⟨read, rest, same⟩
        obtain ⟨here, rfl⟩ := List.cons.inj same
        have short : (utf8Write c).length < 256 := by
          have lengths := congrArg List.length here
          rw [length_take] at lengths
          omega
        rw [Nat.mod_eq_of_lt short, drop_left] at rest
        exact ⟨short, (ih fuel (by omega)).mp rest⟩
      rintro ⟨short, others⟩
      refine ⟨names.map utf8Write, ?_, ?_⟩
      · rw [Nat.mod_eq_of_lt short, drop_left]
        exact (ih fuel (by omega)).mpr others
      · rw [Nat.mod_eq_of_lt short, take_length]
  rw [convertNPNProtocols_eq]
  exact run names _ (Nat.le_refl _)

/-- A name whose length does not fit in the byte for it -/
theorem not_convertNPNProtocols :
    ¬∀ (memory : Nat → UInt8) (names : List JSString), (∀ c ∈ names, c ≠ []) →
      readProtocols (convertNPNProtocols memory names).length (convertNPNProtocols memory names) =
        some (names.map utf8Write) := by
  intro all
  have some_ : ∀ c ∈ [List.replicate 256 (0x61 : UInt16)], c ≠ [] := by
    intro c mem
    rw [mem_singleton.mp mem]
    exact cons_ne_nil _ _
  have here := all (fun _ => 0) [List.replicate 256 0x61] some_
  exact absurd here (by decide +kernel)

end IoJs.Tls
