import IoJs.Buffer.Data

/-!
# `Buffer.concat`

The Buffers of a list are copied one behind the other into a new one, each as far as there is room.
A list of one Buffer is that Buffer, and an empty list is an empty Buffer, whatever length is asked
for.

A position from 2³¹ on is no offset for `copy`, which throws.
-/

namespace IoJs.Buffer

open IoJs.Library IoJs.Library.Blocks List

/-! ## `Buffer.prototype.copy` -/

/-- `CHECK_NOT_OOB(ParseArrayIndex(arg, default, …))` -/
def parseArrayIndex (arg : Option Number) (default : ℕ) : Except Thrown ℕ :=
  match arg with
  | none => .ok default
  | some arg =>
    if arg.toInt32 < 0 then .error (.rangeError "out of range index") else .ok arg.toInt32.toNat

/-- `Copy`: how many bytes are copied, and the target after it -/
def copy (source target : Data) (targetStart sourceStart sourceEnd : Option Number) :
    Except Thrown (ℕ × Data) := do
  let targetStart ← parseArrayIndex targetStart 0
  let sourceStart ← parseArrayIndex sourceStart 0
  let sourceEnd ← parseArrayIndex sourceEnd source.length
  if targetStart ≥ target.length ∨ sourceStart ≥ sourceEnd then .ok (0, target)
  else if sourceStart > source.length then .error (.rangeError "out of range index")
  else
    let sourceEnd :=
      if sourceEnd - sourceStart > target.length - targetStart then
        sourceStart + target.length - targetStart
      else sourceEnd
    let toCopy := min (min (sourceEnd - sourceStart) (target.length - targetStart))
      (source.length - sourceStart)
    .ok (toCopy, { target with
      memory := Blocks.store target.memory targetStart (load source.memory sourceStart toCopy) })

/-! ## `new Buffer(length)` -/

/-- `checked` and `allocate`, of a length that is not negative; the memory is not initialized. -/
def fromNumber (uninitialized : ℕ → UInt8) (length : ℕ) : Except Thrown Data :=
  if large : Pool.kMaxLength ≤ length then
    .error (.rangeError "Attempt to allocate Buffer larger than maximum size: 0x3fffffff bytes")
  else .ok { memory := uninitialized, length, length_le := by omega }

/-! ## `Buffer.concat` -/

/-- `for (var i = 0; i < list.length; i++)`, from a position on -/
def concatLoop : List Data → Data → ℕ → Except Thrown Data
  | [], buffer, _ => .ok buffer
  | buf :: list, buffer, pos => do
      let (_, buffer) ← copy buf buffer (some (.finite pos)) none none
      concatLoop list buffer (pos + buf.length)

/-- The length that is asked for: that of all Buffers where it is `undefined` -/
def concatLength (list : List Data) : Option Number → ℕ
  | none => (list.map Data.length).sum
  | some length => length.toUint32

/-- `Buffer.concat` -/
def concat (uninitialized : ℕ → UInt8) (list : List Data) (length : Option Number) :
    Except Thrown Data :=
  let length := concatLength list length
  match list with
  | [] => fromNumber uninitialized 0
  | [buffer] => .ok buffer
  | list => do
      let buffer ← fromNumber uninitialized length
      concatLoop list buffer 0

/-! ## Copies -/

variable {source target : Data} {list : List Data} {pos : ℕ}

theorem parseArrayIndex_natCast (default : ℕ) (small : pos < 2 ^ 31) :
    parseArrayIndex (some (.finite pos)) default = .ok pos := by
  have kept : (Number.finite pos).toInt32 = pos := Int32.toInt32_natCast small
  simp only [parseArrayIndex, kept]
  rw [if_neg (by omega), Int.toNat_natCast]

theorem parseArrayIndex_large (default : ℕ) (large : 2 ^ 31 ≤ pos) (bound : pos < 2 ^ 32) :
    parseArrayIndex (some (.finite pos)) default = .error (.rangeError "out of range index") := by
  have cut : Int32.truncate (pos : ℚ) = pos := by exact_mod_cast Int32.truncate_intCast pos
  have negative : (Number.finite pos).toInt32 < 0 := by
    rw [Number.toInt32, Int32.toInt32, cut, Int32.toInt_eq, Int32.toNat_bits_natCast bound,
      if_pos large]
    omega
  rw [parseArrayIndex, if_pos negative]

/-- The target after a copy of as much as there is room for -/
def Data.put (target : Data) (pos : ℕ) (bytes : List UInt8) : Data :=
  { target with memory := Blocks.store target.memory pos (bytes.take (target.length - pos)) }

section

variable (target : Data) (pos : ℕ)

@[simp]
theorem Data.length_put (bytes : List UInt8) : (target.put pos bytes).length = target.length := rfl

theorem Data.put_nil : target.put pos [] = target := by rw [put, take_nil, store_nil]

theorem Data.put_put (first second : List UInt8) :
    (target.put pos first).put (pos + first.length) second = target.put pos (first ++ second) := by
  simp only [put, take_append, Nat.sub_sub]
  rw [← store_append]
  by_cases fits : first.length ≤ target.length - pos
  · rw [take_of_length_le fits]
  have none : target.length - (pos + first.length) = 0 := by omega
  rw [none, take_zero, store_nil, store_nil]

end

theorem copy_eq (small : pos < 2 ^ 31) (source target : Data) :
    ∃ copied, copy source target (some (.finite pos)) none none =
      .ok (copied, target.put pos source.bytes) := by
  rw [copy, parseArrayIndex_natCast 0 small]
  simp only [parseArrayIndex, bind, Except.bind, Nat.not_lt_zero, gt_iff_lt, ge_iff_le, if_false,
    Nat.sub_zero, Nat.zero_add]
  by_cases nothing : target.length ≤ pos ∨ source.length ≤ 0
  · refine ⟨0, ?_⟩
    have nil : source.bytes.take (target.length - pos) = [] := by
      rw [take_eq_nil_iff, ← length_eq_zero_iff, Data.length_bytes]
      omega
    rw [if_pos nothing, Data.put, nil, store_nil]
  refine ⟨min source.length (target.length - pos), ?_⟩
  have copied : min (min (if target.length - pos < source.length then target.length - pos
      else source.length) (target.length - pos)) source.length =
        min source.length (target.length - pos) := by
    split_ifs <;> omega
  have block : source.bytes.take (target.length - pos) =
      load source.memory 0 (min source.length (target.length - pos)) := by
    rw [Data.bytes, ← take_load (Nat.min_le_left _ _), Nat.min_comm, ← take_take,
      take_of_length_le (length_load _ _ _).le]
  rw [if_neg nothing, copied, Data.put, block]

/-! ## The loop -/

/-- The lengths of all Buffers but the last: where that starts -/
def lastPosition (list : List Data) : ℕ := (list.dropLast.map Data.length).sum

theorem lastPosition_cons {buf : Data} (more : list ≠ []) :
    lastPosition (buf :: list) = buf.length + lastPosition list := by
  rw [lastPosition, dropLast_cons_of_ne_nil more, map_cons, sum_cons]
  rfl

theorem concatLoop_eq (target : Data) (small : pos + lastPosition list < 2 ^ 31) :
    concatLoop list target pos = .ok (target.put pos (list.flatMap Data.bytes)) := by
  induction list generalizing target pos with
  | nil => rw [flatMap_nil, Data.put_nil]; rfl
  | cons buf list ih =>
    obtain ⟨copied, here⟩ := @copy_eq pos (by omega) buf target
    simp only [concatLoop, here, bind, Except.bind]
    by_cases last : list = []
    · subst last
      rw [concatLoop, flatMap_singleton]
    rw [lastPosition_cons last] at small
    rw [ih _ (by omega), ← buf.length_bytes, Data.put_put, flatMap_cons]

theorem concatLoop_large (target : Data) (small : pos < 2 ^ 31)
    (large : 2 ^ 31 ≤ pos + lastPosition list) :
    concatLoop list target pos = .error (.rangeError "out of range index") := by
  induction list generalizing target pos with
  | nil => exact absurd large (Nat.not_le_of_lt small)
  | cons buf list ih =>
    obtain ⟨copied, here⟩ := copy_eq small buf target
    simp only [concatLoop, here, bind, Except.bind]
    have bound := buf.length_lt
    cases list with
    | nil => exact absurd large (Nat.not_le_of_lt small)
    | cons =>
      rw [lastPosition_cons (cons_ne_nil _ _), ← Nat.add_assoc] at large
      by_cases fits : pos + buf.length < 2 ^ 31
      · exact ih _ fits large
      simp only [concatLoop, copy, parseArrayIndex_large 0 (Nat.le_of_not_lt fits) (by omega), bind,
        Except.bind]

/-! ## What is returned -/

theorem take_bytes_put (target : Data) (bytes : List UInt8) :
    (target.put 0 bytes).bytes.take (min target.length bytes.length) =
      bytes.take (min target.length bytes.length) := by
  rw [Data.bytes, Data.length_put, take_load (Nat.min_le_left _ _)]
  apply ext_getElem?
  intro i
  by_cases lt : i < min target.length bytes.length
  · have written : (bytes.take (target.length - 0))[i]? = some bytes[i] := by
      rw [List.getElem?_take_of_lt (by omega), List.getElem?_eq_getElem]
    rw [getElem?_load lt, List.getElem?_take_of_lt lt, List.getElem?_eq_getElem (by omega)]
    have stored : Blocks.store target.memory 0 (bytes.take (target.length - 0)) (0 + i) =
      bytes[i] :=
      store_inside written
    exact congrArg some stored
  rw [List.getElem?_eq_none (by rw [length_load]; omega),
    List.getElem?_eq_none (by rw [length_take]; omega)]

theorem length_flatMap_bytes (list : List Data) :
    (list.flatMap Data.bytes).length = (list.map Data.length).sum := by
  simp [length_flatMap]

/-- **What `concat` returns.**  An empty list and a list of one Buffer do not have the length that
is asked for; other lists do, unless the length or a position is too large. -/
theorem concat_spec (uninitialized : ℕ → UInt8) (list : List Data) (length : Option Number) :
    (list = [] → ∃ empty : Data, concat uninitialized list length = .ok empty ∧ empty.length = 0) ∧
      (∀ buffer, list = [buffer] → concat uninitialized list length = .ok buffer) ∧
      (2 ≤ list.length →
        if Pool.kMaxLength ≤ concatLength list length ∨ 2 ^ 31 ≤ lastPosition list then
          ∃ message, concat uninitialized list length = .error (.rangeError message)
        else
          ∃ buffer : Data, concat uninitialized list length = .ok buffer ∧
            buffer.length = concatLength list length ∧
            buffer.bytes.take (min buffer.length (list.map Data.length).sum) =
              (list.flatMap Data.bytes).take (min buffer.length (list.map Data.length).sum)) := by
  refine ⟨?_, ?_, fun several => ?_⟩
  · rintro rfl
    exact ⟨_, rfl, rfl⟩
  · rintro buffer rfl
    rfl
  obtain ⟨first, second, rest, rfl⟩ : ∃ first second rest, list = first :: second :: rest := by
    match list, several with
    | first :: second :: rest, _ => exact ⟨first, second, rest, rfl⟩
  have whole : concat uninitialized (first :: second :: rest) length =
      (fromNumber uninitialized (concatLength (first :: second :: rest) length)).bind fun buffer =>
        concatLoop (first :: second :: rest) buffer 0 := rfl
  rw [whole]
  generalize first :: second :: rest = list
  generalize concatLength list length = n
  rw [fromNumber]
  by_cases large : Pool.kMaxLength ≤ n
  · rw [if_pos (.inl large), dif_pos large]
    exact ⟨_, rfl⟩
  rw [dif_neg large, Except.bind]
  by_cases far : 2 ^ 31 ≤ lastPosition list
  · rw [if_pos (.inr far), concatLoop_large _ (by decide) (by omega)]
    exact ⟨_, rfl⟩
  rw [if_neg (by omega), concatLoop_eq _ (by omega), ← length_flatMap_bytes]
  exact ⟨_, rfl, rfl, take_bytes_put ⟨uninitialized, n, _⟩ _⟩

/-- A Buffer of some bytes -/
def Data.ofBytes (bytes : List UInt8) (small : bytes.length ≤ Pool.kMaxLength) : Data :=
  { memory := fun i => bytes.getD i 0, length := bytes.length, length_le := small }

/-- Two Buffers, with less room than they need -/
theorem concat_spec_two : ∃ buffer : Data,
    concat (fun _ => 0xFF) [.ofBytes [1, 2] (by decide), .ofBytes [3, 4] (by decide)]
        (some (.finite (3 : ℕ))) = .ok buffer ∧
      buffer.length = 3 ∧ buffer.bytes.take 3 = [1, 2, 3] := by
  have three : (Number.finite (3 : ℕ)).toUint32 = 3 := by decide
  have several := (concat_spec (fun _ => 0xFF)
    [.ofBytes [1, 2] (by decide), .ofBytes [3, 4] (by decide)] (some (.finite (3 : ℕ)))).2.2
      (by decide)
  rw [concatLength, three, if_neg (by decide)] at several
  obtain ⟨buffer, eq, length, bytes⟩ := several
  rw [length] at bytes
  exact ⟨buffer, eq, length, bytes⟩

/-- **The length is not the one that is asked for**, where there are fewer than two Buffers. -/
theorem concat_other_length :
    (∃ buffer : Data, concat (fun _ => 0) [] (some (.finite (5 : ℕ))) = .ok buffer ∧
        buffer.length ≠ 5) ∧
      ∃ buffer : Data, concat (fun _ => 0) [.ofBytes [1, 2] (by decide)] (some (.finite (5 : ℕ))) =
        .ok buffer ∧ buffer.length ≠ 5 :=
  ⟨⟨_, rfl, by decide⟩, _, rfl, by decide⟩

end IoJs.Buffer
