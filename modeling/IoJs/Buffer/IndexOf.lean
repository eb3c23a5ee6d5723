import IoJs.Buffer.Data

/-!
# `Buffer.prototype.indexOf`

A string, a Buffer or a byte is searched for, from an offset on that counts from the end where it is
negative. There is a native function for each of them; all three cut the offset in the same way, and
none of them searches where the rest of the haystack is too short.
-/

namespace IoJs.Buffer

open IoJs.Library IoJs.Library.Blocks List Option

/-- What is searched for -/
inductive Needle where
  | string (text : Str)
  | buffer (data : Data)
  | number (value : Number)

/-! ## The native functions -/

/-- `offset`, of `offset_i32` -/
def cutOffset (objLength : ℕ) (offset : ℤ) : ℕ :=
  if offset < 0 then
    if offset + (Int32.bits objLength).toInt < 0 then 0 else (Int32.bits (objLength + offset)).toNat
  else (Int32.bits offset).toNat

/-- `IndexOf`: where the needle first occurs; nothing if the `CHECK` fails -/
def nativeIndexOf (haystack : ℕ → UInt8) (hLength : ℕ) (needle : ℕ → UInt8) (nLength : ℕ) :
    Option (Option ℕ) :=
  if hLength < nLength then none
  else
    some <| (List.range (hLength - nLength + 1)).find? fun i =>
      -- the second one is `memcmp`
      haystack i = needle 0 ∧ load haystack i nLength = load needle 0 nLength

/-- The index that is returned, of one behind the offset -/
def returned (offset : ℕ) : Option ℕ → ℤ
  | none => -1
  | some r => (Int32.bits (r + offset)).toInt

/-- What `IndexOfString` and `IndexOfBuffer` do with the bytes of the needle -/
def indexOfBytes (haystack : Data) (needle : ℕ → UInt8) (nLength : ℕ) (offset : ℤ) : Option ℤ :=
  let offset := cutOffset haystack.length offset
  if nLength = 0 ∨ haystack.length = 0 ∨ offset ≠ 0 ∧ nLength + offset ≤ nLength ∨
      nLength + offset > haystack.length then
    some (-1)
  else
    (nativeIndexOf (fun i => haystack.memory (offset + i)) (haystack.length - offset) needle
      nLength).map (returned offset)

def indexOfString (haystack : Data) (text : Str) (offset : ℤ) : Option ℤ :=
  let str := utf8Value text
  indexOfBytes haystack (fun i => str.getD i 0) str.length offset

def indexOfBuffer (haystack needle : Data) (offset : ℤ) : Option ℤ :=
  indexOfBytes haystack needle.memory needle.length offset

/-- `IndexOfNumber`; `memchr` takes the needle as an `unsigned char`. -/
def indexOfNumber (haystack : Data) (needle : ℕ) (offset : ℤ) : Option ℤ :=
  let offset := cutOffset haystack.length offset
  if haystack.length = 0 ∨ (offset + 1) % 2 ^ 32 > haystack.length then some (-1)
  else
    some <| returned offset <| (List.range (haystack.length - offset)).find? fun i =>
      haystack.memory (offset + i) = UInt8.ofNat needle

/-! ## `Buffer.prototype.indexOf` -/

/-- `x > bound` -/
def Number.gt (bound : ℤ) : Number → Bool
  | .finite value => bound < value
  | .infinite negative => !negative
  | .nan => false

/-- `x < bound` -/
def Number.lt (bound : ℤ) : Number → Bool
  | .finite value => value < bound
  | .infinite negative => negative
  | .nan => false

/-- The offset that is passed on; where it is missing, it is `undefined`. -/
def passedOffset (byteOffset : Option Number) : ℤ :=
  let byteOffset := byteOffset.getD .nan
  if byteOffset.gt 0x7fffffff then 0x7fffffff
  else if byteOffset.lt (-0x80000000) then -0x80000000
  else byteOffset.toInt32

/-- `Buffer.prototype.indexOf`; nothing if the process aborts -/
def indexOf (haystack : Data) (val : Needle) (byteOffset : Option Number) : Option ℤ :=
  let byteOffset := passedOffset byteOffset
  match val with
  | .string text => indexOfString haystack text byteOffset
  | .buffer data => indexOfBuffer haystack data byteOffset
  | .number value => indexOfNumber haystack value.toUint32 byteOffset

/-! ## What is searched for, and where -/

def Needle.bytes : Needle → List UInt8
  | .string text => utf8Write text.units
  | .buffer data => data.bytes
  | .number value => [UInt8.ofInt value.integer]

/-- The needle occurs at an index, entirely within the haystack. An empty one occurs nowhere. -/
def OccursAt (haystack needle : List UInt8) (i : ℕ) : Prop :=
  needle ≠ [] ∧ needle <+: haystack.drop i

/-- Where the search starts: an integer counts from the end where it is negative. -/
def startOf (length : ℕ) : Number → ℕ
  | .infinite negative => if negative then 0 else length
  | offset => if 0 ≤ offset.integer then offset.integer.toNat else (length + offset.integer).toNat

/-- The occurrences from an index on -/
def occurrences (haystack needle : List UInt8) (start : ℕ) : Set ℕ :=
  {i | start ≤ i ∧ OccursAt haystack needle i}

/-- A result is the least of some indices, or −1 if there are none. -/
def Least (indices : Set ℕ) (result : ℤ) : Prop :=
  (∃ i : ℕ, result = i ∧ IsLeast indices i) ∨ result = -1 ∧ indices = ∅

variable {haystack : Data} {needle : List UInt8}

theorem occursAt_iff (some_ : needle ≠ []) (i : ℕ) : OccursAt haystack.bytes needle i ↔
    i + needle.length ≤ haystack.length ∧ load haystack.memory i needle.length = needle := by
  rw [OccursAt, and_iff_right some_, Data.bytes, prefix_drop_load some_, Nat.zero_add]

theorem occurrences_nil (haystack : List UInt8) (start : ℕ) : occurrences haystack [] start = ∅ :=
  Set.eq_empty_of_forall_notMem fun _ occurs => occurs.2.1 rfl

variable {start : ℕ}

theorem occurrences_short (short : haystack.length < start + needle.length) :
    occurrences haystack.bytes needle start = ∅ := by
  apply Set.eq_empty_of_forall_notMem
  rintro i ⟨from_, occurs⟩
  have fits := (occursAt_iff occurs.1 i).mp occurs
  omega

theorem occurrences_end (behind : haystack.length ≤ start)
    (needle : List UInt8) : occurrences haystack.bytes needle start = ∅ := by
  by_cases empty : needle = []
  · rw [empty, occurrences_nil]
  have pos : 0 < needle.length := length_pos_iff.mpr empty
  exact occurrences_short (by omega)

/-! ## Offsets -/

variable {length : ℕ} {offset : ℤ}

theorem cutOffset_eq (small : length < 2 ^ 31) (low : -2 ^ 31 ≤ offset) (high : offset < 2 ^ 31) :
    cutOffset length offset = if 0 ≤ offset then offset.toNat else (length + offset).toNat := by
  have whole : (Int32.bits length).toInt = length := Int32.toInt_bits (by omega) (by omega)
  have first := Int32.toNat_bits offset
  have second := Int32.toNat_bits (length + offset)
  rw [cutOffset, whole]
  split_ifs <;> omega

theorem passedOffset_finite (value : ℚ) : passedOffset (some (.finite value)) =
    max (-2 ^ 31) (min (2 ^ 31 - 1) (Int32.truncate value)) := by
  rw [passedOffset, getD_some, Number.gt, Number.lt, Number.toInt32]
  by_cases large : ((0x7fffffff : ℤ) : ℚ) < value
  · have above : 0x7fffffff ≤ Int32.truncate value := Int32.le_truncate (le_of_lt large)
    rw [if_pos (decide_eq_true large)]
    omega
  have below : Int32.truncate value ≤ 0x7fffffff := Int32.truncate_le (not_lt.mp large)
  rw [if_neg (by rwa [decide_eq_true_eq])]
  by_cases small : value < ((-0x80000000 : ℤ) : ℚ)
  · have under : Int32.truncate value ≤ -0x80000000 := Int32.truncate_le (le_of_lt small)
    rw [if_pos (decide_eq_true small)]
    omega
  have above : -0x80000000 ≤ Int32.truncate value := Int32.le_truncate (not_lt.mp small)
  rw [if_neg (by rwa [decide_eq_true_eq]), Int32.toInt32_eq_truncate (by omega) (by omega)]
  omega

theorem startOf_finite (length : ℕ) (value : ℚ) : startOf length (.finite value) =
      if 0 ≤ Int32.truncate value then (Int32.truncate value).toNat
      else (length + Int32.truncate value).toNat := rfl

theorem cutOffset_passedOffset (small : length < 2 ^ 31) (byteOffset : Option Number) :
    cutOffset length (passedOffset byteOffset) = startOf length (byteOffset.getD .nan) ∨
      length ≤ cutOffset length (passedOffset byteOffset) ∧
        length ≤ startOf length (byteOffset.getD .nan) := by
  rcases byteOffset with - | (value | negative | -)
  · exact .inl (by rw [cutOffset_eq small (by decide) (by decide)]; rfl)
  · rw [passedOffset_finite, cutOffset_eq small (by omega) (by omega), getD_some, startOf_finite]
    split_ifs <;> omega
  · cases negative with
    | true =>
      have low : passedOffset (some (.infinite true)) = -2 ^ 31 := rfl
      left
      rw [low, cutOffset_eq small (by decide) (by decide), if_neg (by decide), getD_some,
        startOf, if_pos rfl]
      omega
    | false =>
      have high : passedOffset (some (.infinite false)) = 2 ^ 31 - 1 := rfl
      right
      rw [high, cutOffset_eq small (by decide) (by decide), if_pos (by decide), getD_some,
        startOf, if_neg (by decide)]
      omega
  · exact .inl (by rw [cutOffset_eq small (by decide) (by decide)]; rfl)

theorem occurrences_cutOffset (haystack : Data) (needle : List UInt8) (byteOffset : Option Number) :
    occurrences haystack.bytes needle (cutOffset haystack.length (passedOffset byteOffset)) =
      occurrences haystack.bytes needle (startOf haystack.length (byteOffset.getD .nan)) := by
  obtain same | ⟨behind, behind'⟩ := cutOffset_passedOffset haystack.length_lt byteOffset
  · rw [same]
  · rw [occurrences_end behind, occurrences_end behind']

/-! ## The searches -/

theorem least_returned {offset rounds : ℕ} {found : ℕ → Bool} {indices : Set ℕ}
    (small : ∀ r < rounds, offset + r < 2 ^ 31)
    (mem : ∀ i, i ∈ indices ↔ ∃ r < rounds, found r = true ∧ i = offset + r) :
    Least indices (returned offset ((List.range rounds).find? found)) := by
  cases result : (List.range rounds).find? found with
  | none =>
    rw [List.find?_range_eq_none] at result
    refine .inr ⟨rfl, Set.eq_empty_of_forall_notMem fun i here => ?_⟩
    obtain ⟨r, lt, yes, -⟩ := (mem i).mp here
    have no := result r lt
    rw [yes] at no
    cases no
  | some r =>
    obtain ⟨yes, within, before⟩ := List.find?_range_eq_some.mp result
    have lt := mem_range.mp within
    have narrow := small r lt
    refine .inl ⟨offset + r, ?_, (mem _).mpr ⟨r, lt, yes, rfl⟩, ?_⟩
    · rw [returned, Int32.toInt_bits (by omega) (by omega)]
      omega
    intro i here
    obtain ⟨r', -, yes', rfl⟩ := (mem i).mp here
    by_contra less
    have no := before r' (by omega)
    rw [yes'] at no
    cases no

variable {haystack : Data} {offset : ℤ}

/-- The search finds the least position from the offset on, or none. -/
theorem indexOfBytes_least {needle : ℕ → UInt8} {nLength : ℕ} :
    ∃ result, indexOfBytes haystack needle nLength offset = some result ∧
      Least (occurrences haystack.bytes (load needle 0 nLength)
        (cutOffset haystack.length offset)) result := by
  have small := haystack.length_lt
  rw [indexOfBytes]
  generalize cutOffset haystack.length offset = start
  have length : (load needle 0 nLength).length = nLength := length_load _ _ _
  by_cases early : nLength = 0 ∨ haystack.length = 0 ∨ start ≠ 0 ∧ nLength + start ≤ nLength ∨
      nLength + start > haystack.length
  · refine ⟨-1, if_pos early, .inr ⟨rfl, ?_⟩⟩
    by_cases empty : nLength = 0
    · rw [empty, show load needle 0 0 = [] from rfl, occurrences_nil]
    · exact occurrences_short (by omega)
  have some_ : load needle 0 nLength ≠ [] := length_pos_iff.mp (by omega)
  refine ⟨_, by rw [if_neg early, nativeIndexOf, if_neg (by omega), map_some], ?_⟩
  refine least_returned (fun r lt => by omega) fun i => ?_
  rw [occurrences, Set.mem_ofPred_eq, occursAt_iff some_, length]
  constructor
  · rintro ⟨from_, fits, same⟩
    obtain ⟨r, rfl⟩ := Nat.exists_eq_add_of_le from_
    have first := congrArg (·[0]?) same
    simp only [getElem?_load (Nat.pos_of_ne_zero fun zero => early (.inl zero)), Nat.add_zero,
      Option.some.injEq] at first
    have block : load (fun i => haystack.memory (start + i)) r nLength = load needle 0 nLength := by
      rw [← same, load_shift]
    exact ⟨r, by omega, decide_eq_true ⟨first, block⟩, rfl⟩
  rintro ⟨r, lt, found, rfl⟩
  have block := (of_decide_eq_true found).2
  rw [load_shift] at block
  exact ⟨Nat.le_add_right start r, by omega, block⟩

theorem indexOfNumber_least {needle : ℕ} :
    ∃ result, indexOfNumber haystack needle offset = some result ∧
      Least (occurrences haystack.bytes [UInt8.ofNat needle]
        (cutOffset haystack.length offset)) result := by
  have small := haystack.length_lt
  have bound : cutOffset haystack.length offset < 2 ^ 32 := by
    rw [cutOffset]
    split_ifs
    · decide
    · exact BitVec.isLt _
    · exact BitVec.isLt _
  rw [indexOfNumber]
  generalize cutOffset haystack.length offset = start at bound
  by_cases early : haystack.length = 0 ∨ (start + 1) % 2 ^ 32 > haystack.length
  · refine ⟨-1, if_pos early, .inr ⟨rfl, occurrences_end ?_ _⟩⟩
    omega
  refine ⟨_, if_neg early, least_returned (fun r lt => by omega) fun i => ?_⟩
  rw [occurrences, Set.mem_ofPred_eq, occursAt_iff (cons_ne_nil _ _), length_singleton]
  constructor
  · rintro ⟨from_, fits, same⟩
    obtain ⟨r, rfl⟩ := Nat.exists_eq_add_of_le from_
    exact ⟨r, by omega, decide_eq_true (List.cons.inj same).1, rfl⟩
  rintro ⟨r, lt, found, rfl⟩
  exact ⟨Nat.le_add_right start r, by omega, congrArg (fun byte => [byte])
    (of_decide_eq_true found)⟩

/-- **What is searched for is found** at the least index from the offset on. -/
theorem indexOf_least (haystack : Data) (val : Needle) (byteOffset : Option Number) :
    ∃ result, indexOf haystack val byteOffset = some result ∧
      Least (occurrences haystack.bytes val.bytes
        (startOf haystack.length (byteOffset.getD .nan))) result := by
  rw [← occurrences_cutOffset]
  cases val with
  | string text =>
    have whole := @indexOfBytes_least haystack (passedOffset byteOffset)
      (fun i => (utf8Value text).getD i 0) (utf8Value text).length
    rw [load_getD] at whole
    rwa [Needle.bytes, ← utf8Value_eq]
  | buffer data => exact indexOfBytes_least
  | number value =>
    have whole := @indexOfNumber_least haystack (passedOffset byteOffset) value.toUint32
    rwa [Number.ofNat_toUint32] at whole

end IoJs.Buffer
