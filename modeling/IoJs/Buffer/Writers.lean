import IoJs.Buffer.Readers
import Mathlib.Tactic.IntervalCases

/-!
# What the writers of numbers write

A number is written right when the bytes are those of its two's complement: byte `i` is the number
divided by `256 ^ i`, rounded down (`WritesBytes`).
-/

namespace IoJs.Buffer

open IoJs.Library.Int32 List

variable {buffer : List UInt8} {index : ℕ → ℕ} {digit : ℕ → ℤ}

/-- The bytes of a number are stored at some indices, and nothing else changes. -/
structure WritesBytes (written : Written) (buffer : List UInt8) (index : ℕ → ℕ) (offset bytes : ℕ)
    (value : ℤ) : Prop where
  returns : written.1 = .ok ((offset + bytes : ℕ) : ℤ)
  stored : ∀ i < bytes, written.2[index i]? = some (UInt8.ofInt (value / 256 ^ i))
  outside : ∀ p, p < offset ∨ offset + bytes ≤ p → written.2[p]? = buffer[p]?

/-! ## Bytes -/

theorem ofInt_eq_iff (x y : ℤ) : UInt8.ofInt x = UInt8.ofInt y ↔ x % 256 = y % 256 := by
  rw [← UInt8.toNat_inj, UInt8.ofInt, UInt8.ofInt, UInt8.toNat_ofNat', UInt8.toNat_ofNat']
  omega

theorem toNat_ofInt (x : ℤ) : ((UInt8.ofInt x).toNat : ℤ) = x % 256 := by
  rw [UInt8.ofInt, UInt8.toNat_ofNat']
  omega

theorem shiftRight_emod (value : ℤ) {i : ℕ} (few : i < 4) :
    shiftRight value (8 * i) % 256 = value / 256 ^ i % 256 := by
  rw [shiftRight_eq]
  interval_cases i
  · omega
  · omega
  · omega
  · omega

/-! ## Stores -/

/-- Bytes that are stored one after the other -/
def stores (index : ℕ → ℕ) (digit : ℕ → ℤ) (buffer : List UInt8) (order : List ℕ) : List UInt8 :=
  order.foldl (fun buffer i => store buffer (index i) (digit i)) buffer

theorem stores_outside {order : List ℕ} {p : ℕ} (apart : ∀ i ∈ order, index i ≠ p)
    (buffer : List UInt8) : (stores index digit buffer order)[p]? = buffer[p]? := by
  induction order generalizing buffer with
  | nil => rfl
  | cons i order ih =>
    obtain ⟨other, apart⟩ := forall_mem_cons.mp apart
    exact (ih apart _).trans (List.getElem?_set_ne other)

theorem stores_inside {order : List ℕ} (nodup : (order.map index).Nodup) {i : ℕ} (mem : i ∈ order)
    (fits : index i < buffer.length) :
    (stores index digit buffer order)[index i]? = some (UInt8.ofInt (digit i)) := by
  induction order generalizing buffer with
  | nil => cases mem
  | cons first order ih =>
    obtain ⟨new, nodup⟩ := nodup_cons.mp nodup
    rcases mem_cons.mp mem with rfl | mem
    · -- nothing is stored there again
      have apart : ∀ j ∈ order, index j ≠ index i := fun j later same =>
        new (same ▸ mem_map_of_mem later)
      exact (stores_outside apart _).trans (List.getElem?_set_self fits)
    exact ih nodup mem (fits.trans_eq length_set.symm)

theorem writeLoop_eq (rounds i : ℕ) (buffer : List UInt8) :
    writeLoop index digit rounds i (256 ^ i) buffer =
      stores index (fun i => digit (256 ^ i)) buffer (range' (i + 1) rounds) := by
  induction rounds generalizing i buffer with
  | zero => rfl
  | succ rounds ih => exact ih (i + 1) _

theorem writeDigits_eq (buffer : List UInt8) (value : ℤ) {bytes : ℕ} (pos : 0 < bytes) :
    writeDigits buffer value index digit bytes =
      stores index (fun i => if i = 0 then value else digit (256 ^ i)) buffer (range bytes) := by
  obtain ⟨rounds, rfl⟩ := Nat.exists_eq_succ_of_ne_zero (Nat.ne_of_gt pos)
  refine (writeLoop_eq rounds 0 _).trans ?_
  rw [range_eq_range', range'_succ, stores, stores, foldl_cons, if_pos rfl]
  refine foldl_ext _ _ _ fun buffer i mem => ?_
  have later := (mem_range'_1.mp mem).1
  rw [if_neg (by omega)]

/-- The indices of the bytes of a range, in one of the two orders -/
structure Covers (index : ℕ → ℕ) (offset bytes : ℕ) : Prop where
  inside : ∀ i < bytes, offset ≤ index i ∧ index i < offset + bytes
  apart : ∀ i < bytes, ∀ j < bytes, index i = index j → i = j
  every : ∀ p, offset ≤ p → p < offset + bytes → ∃ i < bytes, index i = p

theorem covers_upward (offset bytes : ℕ) : Covers (upward offset) offset bytes where
  inside i lt := by
    simp only [upward]
    omega
  apart i lt j lt' same := by
    simp only [upward] at same
    omega
  every p le lt := ⟨p - offset, by omega, by simp only [upward]; omega⟩

theorem covers_downward (offset bytes : ℕ) : Covers (downward offset bytes) offset bytes where
  inside i lt := by
    simp only [downward]
    omega
  apart i lt j lt' same := by
    simp only [downward] at same
    omega
  every p le lt := ⟨offset + bytes - 1 - p, by omega, by simp only [downward]; omega⟩

section Digits

variable {offset bytes : ℕ} {value : ℤ}

variable (covers : Covers index offset bytes) {order : List ℕ} (perm : order ~ range bytes)
include covers

include perm in
theorem writesBytes_of_stores (fits : offset + bytes ≤ buffer.length)
    (right : ∀ i < bytes, digit i % 256 = value / 256 ^ i % 256) :
    WritesBytes (.ok ((offset + bytes : ℕ) : ℤ), stores index digit buffer order)
      buffer index offset
      bytes value where
  returns := rfl
  stored i lt := by
    have inside := covers.inside i lt
    have nodup : (order.map index).Nodup := by
      refine (perm.map index).nodup_iff.mpr (Nodup.map_on ?_ nodup_range)
      exact fun i mem j mem' same => covers.apart i (mem_range.mp mem) j (mem_range.mp mem') same
    rw [stores_inside nodup (perm.mem_iff.mpr (mem_range.mpr lt)) (by omega),
      (ofInt_eq_iff _ _).mpr (right i lt)]
  outside p outside := by
    refine stores_outside (fun i mem same => ?_) buffer
    have inside := covers.inside i (mem_range.mp (perm.mem_iff.mp mem))
    omega

theorem writesBytes_of_digits (pos : 0 < bytes) (fits : offset + bytes ≤ buffer.length)
    (right : ∀ i, 0 < i → i < bytes → digit (256 ^ i) % 256 = value / 256 ^ i % 256) :
    WritesBytes (.ok ((offset + bytes : ℕ) : ℤ), writeDigits buffer value index digit bytes) buffer
      index offset bytes value := by
  rw [writeDigits_eq buffer value pos]
  refine writesBytes_of_stores covers (Perm.refl _) fits fun i lt => ?_
  by_cases first : i = 0
  · simp [first]
  · rw [if_neg first, right i (Nat.pos_of_ne_zero first) lt]

end Digits

theorem unsignedDigit_emod {value : ℤ} (nonneg : 0 ≤ value) (i : ℕ) :
    unsignedDigit value (256 ^ i) % 256 = value / 256 ^ i % 256 := by
  rw [unsignedDigit, toUint32_emod, truncate_div, if_pos nonneg]
  push_cast
  rfl

/-- The digits of a number with a sign: where a negative number is divided without a remainder, one
too many is subtracted. -/
theorem signedDigit_emod (value : ℤ) (i : ℕ) : signedDigit value (256 ^ i) % 256 =
    (value / 256 ^ i - if value < 0 ∧ (256 : ℤ) ^ i ∣ value then 1 else 0) % 256 := by
  have cut := toInt32_emod ((value : ℚ) / (256 ^ i : ℕ))
  have pos : (0 : ℤ) < 256 ^ i := by positivity
  rw [truncate_div] at cut
  push_cast at cut
  rw [signedDigit]
  push_cast
  by_cases negative : value < 0
  · have opposite := Int.emod_nonneg (-value) (Int.ne_of_gt pos)
    by_cases dvd : (256 : ℤ) ^ i ∣ value
    · have exact_ : -(-value / 256 ^ i) = value / 256 ^ i := by
        rw [Int.neg_ediv_of_dvd dvd, Int.neg_neg]
      omega
    have up : -(-value / 256 ^ i) = value / 256 ^ i + 1 := by
      rw [Int.neg_ediv, if_neg dvd, Int.sign_eq_one_of_pos pos]
      omega
    omega
  omega

/-! ## Reading what has been written -/

section Reading

variable {n offset bytes : ℕ} {value : ℤ} {written : Written}

theorem value_of_stored {after : List UInt8}
    (stored : ∀ i < n, after[index i]? = some (UInt8.ofInt (value / 256 ^ i))) :
    (Buffer.value after index n : ℤ) = value % 256 ^ n := by
  induction n with
  | zero => simp [Buffer.value]
  | succ n ih =>
    have byte : (element after (index n) : ℤ) = value / 256 ^ n % 256 := by
      rw [element, getD_eq_getElem?_getD, stored n (Nat.lt_succ_self n)]
      exact toNat_ofInt _
    have lower := ih fun i lt => stored i (Nat.lt_succ_of_lt lt)
    rw [value_succ]
    push_cast
    rw [lower, byte, Int.emod_def, Int.emod_def, Int.emod_def, pow_succ,
      Int.ediv_ediv_of_nonneg (by positivity)]
    ring

theorem signed_of_emod (pos : 0 < n) {read : ℕ} (same : (read : ℤ) = value % 256 ^ n)
    (low : -2 ^ (8 * n - 1) ≤ value) (high : value < 2 ^ (8 * n - 1)) : signed n read = value := by
  obtain ⟨k, rfl⟩ := Nat.exists_eq_succ_of_ne_zero (Nat.ne_of_gt pos)
  have bits : 8 * (k + 1) - 1 = 8 * k + 7 := by omega
  have half : (2 : ℤ) ^ (8 * (k + 1) - 1) = 256 ^ k * 0x80 := by
    rw [bits, pow_add, pow_mul]
    norm_num
  have whole : (256 : ℤ) ^ (k + 1) = 256 ^ k * 0x80 * 2 := by omega
  have double : (2 : ℤ) ^ (8 * (k + 1)) = 256 ^ k * 0x80 * 2 := by
    rw [← whole, pow_mul]
    norm_num
  have bound : read < 256 ^ (k + 1) := by
    have less := Int.emod_lt_of_pos value (show (0 : ℤ) < 256 ^ (k + 1) by positivity)
    rw [← same] at less
    exact_mod_cast less
  have top := testBit_top pos bound
  rw [signed, top, double]
  rw [whole] at same
  rw [half] at low high
  have reach : (256 ^ (k + 1 - 1) * 0x80 ≤ read) ↔ ((256 : ℤ) ^ k * 0x80 ≤ read) := by
    exact_mod_cast Iff.rfl
  simp only [decide_eq_true_eq, reach]
  generalize (256 : ℤ) ^ k * 0x80 = middle at *
  by_cases negative : value < 0
  · have moved : value % (middle * 2) = value + middle * 2 := by
      rw [← Int.add_emod_right, Int.emod_eq_of_lt (by omega) (by omega)]
    omega
  have kept : value % (middle * 2) = value := Int.emod_eq_of_lt (by omega) (by omega)
  omega

end Reading

/-! ## Writers that succeed -/

/-- Is a number in the range of a width, with a sign? -/
def InRange (bytes : ℕ) (value : ℤ) : Prop := -2 ^ (8 * bytes - 1) ≤ value ∧
    value < 2 ^ (8 * bytes - 1)

theorem WritesBytes.unique {written written' : Written} {offset bytes : ℕ} {value : ℤ}
    (covers : Covers index offset bytes)
    (first : WritesBytes written buffer index offset bytes value)
    (second : WritesBytes written' buffer index offset bytes value) : written = written' := by
  refine Prod.ext (first.returns.trans second.returns.symm) (ext_getElem? fun p => ?_)
  by_cases inside : offset ≤ p ∧ p < offset + bytes
  · obtain ⟨i, lt, rfl⟩ := covers.every p inside.1 inside.2
    exact (first.stored i lt).trans (second.stored i lt).symm
  · exact (first.outside p (by omega)).trans (second.outside p (by omega)).symm

theorem checkInt_ok {value max min : ℤ} {offset ext : ℕ} (le : value ≤ max) (ge : min ≤ value)
    (fits : offset + ext ≤ buffer.length) : checkInt buffer value offset ext max min = .ok () := by
  rw [checkInt, if_neg (by omega), if_neg (by omega)]

theorem checkInt_misfit {value max min : ℤ} {offset ext : ℕ} (le : value ≤ max) (ge : min ≤ value)
    (misfit : ¬ offset + ext ≤ buffer.length) :
    checkInt buffer value offset ext max min = .error (.rangeError "index out of range") := by
  rw [checkInt, if_neg (by omega), if_pos (by omega)]

section Fixed

variable {value : ℤ} {offset : ℚ}

/-- A writer of a fixed width stores the lowest byte as it is and shifts for the others. -/
theorem writesBytes_of_shifts {bytes start : ℕ} (few : bytes ≤ 4)
    (covers : Covers index start bytes)
    {order : List ℕ} (perm : order ~ range bytes) (fits : start + bytes ≤ buffer.length) :
    WritesBytes (.ok ((start + bytes : ℕ) : ℤ),
        stores index (fun i => if i = 0 then value else shiftRight value (8 * i)) buffer order)
      buffer index start bytes value := by
  refine writesBytes_of_stores covers perm fits fun i lt => ?_
  by_cases first : i = 0
  · simp [first]
  · rw [if_neg first, shiftRight_emod value (by omega)]

theorem writeInt8_writes (range : InRange 1 value) (fits : toUint32 offset + 1 ≤ buffer.length)
    (covers : Covers index (toUint32 offset) 1) :
    WritesBytes (writeInt8 buffer value offset) buffer index (toUint32 offset) 1 value := by
  obtain ⟨low, high⟩ := range
  have here : index 0 = toUint32 offset := by
    have inside := covers.inside 0 (by decide)
    omega
  have check : checkInt buffer value (toUint32 offset) 1 0x7f (-0x80) = .ok () :=
    checkInt_ok (by omega) (by omega) fits
  simp only [writeInt8, check, afterCheck]
  rw [← here] at fits ⊢
  exact writesBytes_of_shifts (by decide) (here ▸ covers) (Perm.refl [0]) fits

section Words

variable (range : InRange 2 value) (fits : toUint32 offset + 2 ≤ buffer.length)

include range fits

theorem checkInt_word : checkInt buffer value (toUint32 offset) 2 0x7fff (-0x8000) = .ok () := by
  obtain ⟨low, high⟩ := range
  exact checkInt_ok (by omega) (by omega) fits

theorem writeInt16LE_writes :
    WritesBytes (writeInt16LE buffer value offset) buffer (upward (toUint32 offset))
      (toUint32 offset) 2 value := by
  simp only [writeInt16LE, checkInt_word range fits, afterCheck]
  exact writesBytes_of_shifts (by decide) (covers_upward _ 2) (Perm.refl [0, 1]) fits

theorem writeInt16BE_writes :
    WritesBytes (writeInt16BE buffer value offset) buffer (downward (toUint32 offset) 2)
      (toUint32 offset) 2 value := by
  have perm : [1, 0] ~ List.range 2 := by decide
  simp only [writeInt16BE, checkInt_word range fits, afterCheck]
  exact writesBytes_of_shifts (by decide) (covers_downward _ 2) perm fits

end Words

section Longs

variable (range : InRange 4 value) (fits : toUint32 offset + 4 ≤ buffer.length)

include range fits

theorem checkInt_long :
    checkInt buffer value (toUint32 offset) 4 0x7fffffff (-0x80000000) = .ok () := by
  obtain ⟨low, high⟩ := range
  exact checkInt_ok (by omega) (by omega) fits

theorem writeInt32LE_writes :
    WritesBytes (writeInt32LE buffer value offset) buffer (upward (toUint32 offset))
      (toUint32 offset) 4 value := by
  simp only [writeInt32LE, checkInt_long range fits, afterCheck]
  exact writesBytes_of_shifts (by decide) (covers_upward _ 4) (Perm.refl [0, 1, 2, 3]) fits

theorem writeInt32BE_writes :
    WritesBytes (writeInt32BE buffer value offset) buffer (downward (toUint32 offset) 4)
      (toUint32 offset) 4 value := by
  have perm : [3, 2, 1, 0] ~ List.range 4 := by decide
  simp only [writeInt32BE, checkInt_long range fits, afterCheck]
  exact writesBytes_of_shifts (by decide) (covers_downward _ 4) perm fits

end Longs

end Fixed

/-! ## The generic writers -/

/-- What the writers with a sign should do: the number is read again, its bytes are those that the
writers of a fixed width store, and nothing is written where they do not fit. -/
structure IntWritten (buffer : List UInt8) (offset : ℚ) (value : ℤ) (n : ByteLength) : Prop where
  little : toUint32 offset + n.bytes ≤ buffer.length →
    WritesBytes (writeIntLE buffer value offset n) buffer (upward (toUint32 offset))
        (toUint32 offset) n.bytes value ∧
      readIntLE (writeIntLE buffer value offset n).2 offset n = .ok value
  big : toUint32 offset + n.bytes ≤ buffer.length →
    WritesBytes (writeIntBE buffer value offset n) buffer (downward (toUint32 offset) n.bytes)
        (toUint32 offset) n.bytes value ∧
      readIntBE (writeIntBE buffer value offset n).2 offset n = .ok value
  one : n = .one → writeIntLE buffer value offset n = writeInt8 buffer value offset ∧
    writeIntBE buffer value offset n = writeInt8 buffer value offset
  two : n = .two → writeIntLE buffer value offset n = writeInt16LE buffer value offset ∧
    writeIntBE buffer value offset n = writeInt16BE buffer value offset
  four : n = .four → writeIntLE buffer value offset n = writeInt32LE buffer value offset ∧
    writeIntBE buffer value offset n = writeInt32BE buffer value offset
  misfit : ¬ toUint32 offset + n.bytes ≤ buffer.length →
    writeIntLE buffer value offset n = (.error (.rangeError "index out of range"), buffer) ∧
      writeIntBE buffer value offset n = (.error (.rangeError "index out of range"), buffer)

section Generic

variable {value : ℤ} {offset : ℚ} {n : ByteLength}

theorem WritesBytes.value_eq {written : Written} {start : ℕ}
    (writes : WritesBytes written buffer index start n.bytes value) :
    (Buffer.value written.2 index n.bytes : ℤ) = value % 256 ^ n.bytes :=
  value_of_stored writes.stored

theorem WritesBytes.length_le {written : Written} {start : ℕ} (covers : Covers index start n.bytes)
    (writes : WritesBytes written buffer index start n.bytes value) :
    start + n.bytes ≤ written.2.length := by
  have pos := n.pos
  obtain ⟨i, lt, last⟩ := covers.every (start + n.bytes - 1) (by omega) (by omega)
  have stored := writes.stored i lt
  have inside := (List.getElem?_eq_some_iff.mp stored).1
  omega

theorem checkInt_range (range : InRange n.bytes value)
    (fits : toUint32 offset + n.bytes ≤ buffer.length) :
    checkInt buffer value (toUint32 offset) n.bytes (2 ^ (8 * n.bytes - 1) - 1)
      (-2 ^ (8 * n.bytes - 1)) = .ok () :=
  checkInt_ok (Int.le_sub_one_of_lt range.2) range.1 fits

theorem signedDigit_right (fine : 0 ≤ value ∨ ¬ (256 : ℤ) ∣ value) {i : ℕ} (pos : 0 < i) :
    signedDigit value (256 ^ i) % 256 = value / 256 ^ i % 256 := by
  have exact_ : ¬ (value < 0 ∧ (256 : ℤ) ^ i ∣ value) := by
    rintro ⟨negative, dvd⟩
    have small : (256 : ℤ) ∣ 256 ^ i := dvd_pow_self 256 (Nat.ne_of_gt pos)
    rcases fine with nonneg | odd
    · omega
    · exact odd (small.trans dvd)
  rw [signedDigit_emod, if_neg exact_, Int.sub_zero]

section

variable (range : InRange n.bytes value)
include range

theorem writeIntLE_writes (fine : 0 ≤ value ∨ ¬ (256 : ℤ) ∣ value)
    (fits : toUint32 offset + n.bytes ≤ buffer.length) :
    WritesBytes (writeIntLE buffer value offset n) buffer (upward (toUint32 offset))
      (toUint32 offset) n.bytes value := by
  simp only [writeIntLE, checkInt_range range fits, afterCheck]
  exact writesBytes_of_digits (covers_upward _ _) n.pos fits fun i pos lt =>
    signedDigit_right fine pos

theorem writeIntBE_writes (fine : 0 ≤ value ∨ ¬ (256 : ℤ) ∣ value)
    (fits : toUint32 offset + n.bytes ≤ buffer.length) :
    WritesBytes (writeIntBE buffer value offset n) buffer (downward (toUint32 offset) n.bytes)
      (toUint32 offset) n.bytes value := by
  simp only [writeIntBE, checkInt_range range fits, afterCheck]
  exact writesBytes_of_digits (covers_downward _ _) n.pos fits fun i pos lt =>
    signedDigit_right fine pos

theorem signed_value_eq {written : Written} {start : ℕ}
    (writes : WritesBytes written buffer index start n.bytes value) :
    signed n.bytes (Buffer.value written.2 index n.bytes) = value :=
  signed_of_emod n.pos writes.value_eq range.1 range.2

theorem readIntLE_of_writes {written : Written}
    (writes : WritesBytes written buffer (upward (toUint32 offset)) (toUint32 offset)
      n.bytes value) :
    readIntLE written.2 offset n = .ok value := by
  obtain ⟨-, -, little, -⟩ := readers_value written.2 offset n
  rw [little, ranged, if_pos (writes.length_le (covers_upward _ _)), signed_value_eq range writes]

theorem readIntBE_of_writes {written : Written}
    (writes : WritesBytes written buffer (downward (toUint32 offset) n.bytes) (toUint32 offset)
      n.bytes value) :
    readIntBE written.2 offset n = .ok value := by
  obtain ⟨-, -, -, big⟩ := readers_value written.2 offset n
  rw [big, ranged, if_pos (writes.length_le (covers_downward _ _)), signed_value_eq range writes]

theorem writeInt_misfit (misfit : ¬ toUint32 offset + n.bytes ≤ buffer.length) :
    writeIntLE buffer value offset n = (.error (.rangeError "index out of range"), buffer) ∧
      writeIntBE buffer value offset n = (.error (.rangeError "index out of range"), buffer) := by
  have check : checkInt buffer value (toUint32 offset) n.bytes (2 ^ (8 * n.bytes - 1) - 1)
      (-2 ^ (8 * n.bytes - 1)) = .error (.rangeError "index out of range") :=
    checkInt_misfit (Int.le_sub_one_of_lt range.2) range.1 misfit
  constructor
  · simp only [writeIntLE, check, afterCheck]
  · simp only [writeIntBE, check, afterCheck]

theorem fine_of_intWritten
    (fits : toUint32 offset + n.bytes ≤ buffer.length) (right : IntWritten buffer offset value n) :
    0 ≤ value ∨ ¬ (256 : ℤ) ∣ value := by
  by_contra bad
  have several : 1 < n.bytes := by
    by_contra single
    have one : n.bytes = 1 := by
      have pos := n.pos
      omega
    obtain ⟨low, -⟩ := range
    rw [one] at low
    omega
  have second := (right.little fits).1.stored 1 several
  have inside : upward (toUint32 offset) 1 < buffer.length := by
    rw [upward]
    omega
  have nodup : ((List.range n.bytes).map (upward (toUint32 offset))).Nodup :=
    Nodup.map (fun i j same => Nat.add_left_cancel same) nodup_range
  have less := signedDigit_emod value 1
  simp only [writeIntLE, checkInt_range range fits, afterCheck, writeDigits_eq buffer value n.pos]
    at second
  rw [stores_inside nodup (mem_range.mpr several) inside, if_neg (by decide), Option.some_inj,
    ofInt_eq_iff] at second
  omega

theorem intWritten_of_fine
    (fits : toUint32 offset + n.bytes ≤ buffer.length) (fine : 0 ≤ value ∨ ¬ (256 : ℤ) ∣ value) :
    IntWritten buffer offset value n := by
  have little := writeIntLE_writes range fine fits
  have big := writeIntBE_writes range fine fits
  refine ⟨fun _ => ⟨little, readIntLE_of_writes range little⟩,
    fun _ => ⟨big, readIntBE_of_writes range big⟩, ?_, ?_, ?_, fun misfit => absurd fits misfit⟩
  · rintro rfl
    exact ⟨little.unique (covers_upward _ _) (writeInt8_writes range fits (covers_upward _ _)),
      big.unique (covers_downward _ _) (writeInt8_writes range fits (covers_downward _ _))⟩
  · rintro rfl
    exact ⟨little.unique (covers_upward _ _) (writeInt16LE_writes range fits),
      big.unique (covers_downward _ _) (writeInt16BE_writes range fits)⟩
  rintro rfl
  exact ⟨little.unique (covers_upward _ _) (writeInt32LE_writes range fits),
    big.unique (covers_downward _ _) (writeInt32BE_writes range fits)⟩

theorem intWritten_of_misfit
    (misfit : ¬ toUint32 offset + n.bytes ≤ buffer.length) : IntWritten buffer offset value n := by
  have refused := writeInt_misfit range misfit
  refine ⟨fun fits => absurd fits misfit, fun fits => absurd fits misfit, ?_, ?_, ?_,
    fun _ => refused⟩
  · rintro rfl
    obtain ⟨low, high⟩ : InRange 1 value := range
    have check : checkInt buffer value (toUint32 offset) 1 0x7f (-0x80) =
        .error (.rangeError "index out of range") := checkInt_misfit (by omega) (by omega) misfit
    simp [refused.1, refused.2, writeInt8, check, afterCheck]
  · rintro rfl
    obtain ⟨low, high⟩ : InRange 2 value := range
    have check : checkInt buffer value (toUint32 offset) 2 0x7fff (-0x8000) =
        .error (.rangeError "index out of range") := checkInt_misfit (by omega) (by omega) misfit
    simp only [refused.1, refused.2, writeInt16LE, writeInt16BE, check, afterCheck, and_self]
  rintro rfl
  obtain ⟨low, high⟩ : InRange 4 value := range
  have check : checkInt buffer value (toUint32 offset) 4 0x7fffffff (-0x80000000) =
      .error (.rangeError "index out of range") := checkInt_misfit (by omega) (by omega) misfit
  simp [refused.1, refused.2, writeInt32LE, writeInt32BE, check, afterCheck]

end

end Generic

/-- What the writers without a sign should do: either they throw and write nothing, or the number is
read again; and they throw just for the numbers that are out of range, and where there is no room.
-/
structure UIntWritten (written : Written) (read : List UInt8 → Except Thrown ℤ)
    (buffer : List UInt8) (start bytes : ℕ) (value : ℤ) : Prop where
  atomic : (∃ thrown, written.1 = .error thrown) ∧ written.2 = buffer ∨
    (∃ returned, written.1 = .ok returned) ∧ read written.2 = .ok value
  throws : (∃ thrown, written.1 = .error thrown) ↔
    value < 0 ∨ 2 ^ (8 * bytes) ≤ value ∨ buffer.length < start + bytes

theorem uintWritten_iff (buffer : List UInt8) {start : ℕ} {n : ByteLength} (value : ℤ)
    {written : Written} (read : List UInt8 → Except Thrown ℤ) (covers : Covers index start n.bytes)
    (writes :
      written = afterCheck (checkInt buffer value start n.bytes (2 ^ (8 * n.bytes)) 0) buffer
      (start + n.bytes) (writeDigits buffer value index (unsignedDigit value) n.bytes))
    (reads : ∀ after, start + n.bytes ≤ after.length →
      read after = .ok (Buffer.value after index n.bytes)) :
    UIntWritten written read buffer start n.bytes value ↔
      value ≠ 2 ^ (8 * n.bytes) ∨ buffer.length < start + n.bytes := by
  have pow : (2 : ℤ) ^ (8 * n.bytes) = 256 ^ n.bytes := by
    rw [pow_mul]
    norm_num
  have pos : (0 : ℤ) < 256 ^ n.bytes := by positivity
  by_cases bounds : value > 2 ^ (8 * n.bytes) ∨ value < 0
  · have thrown : written = (.error (.typeError "value is out of bounds"), buffer) := by
      rw [writes, checkInt, if_pos bounds]
      rfl
    refine ⟨fun _ => .inl (by omega),
      fun _ => ⟨.inl ⟨⟨_, congrArg Prod.fst thrown⟩, by rw [thrown]⟩,
      fun _ => ?_, fun _ => ⟨_, congrArg Prod.fst thrown⟩⟩⟩
    omega
  by_cases misfit : start + n.bytes > buffer.length
  · have thrown : written = (.error (.rangeError "index out of range"), buffer) := by
      rw [writes, checkInt, if_neg bounds, if_pos misfit]
      rfl
    exact ⟨fun _ => .inr misfit, fun _ => ⟨.inl ⟨⟨_, congrArg Prod.fst thrown⟩, by rw [thrown]⟩,
      fun _ => .inr (.inr misfit), fun _ => ⟨_, congrArg Prod.fst thrown⟩⟩⟩
  have done : written = (.ok ((start + n.bytes : ℕ) : ℤ),
      writeDigits buffer value index (unsignedDigit value) n.bytes) := by
    rw [writes, checkInt, if_neg bounds, if_neg misfit]
    rfl
  have silent : ¬ ∃ thrown, written.1 = .error thrown := by simp [done]
  constructor
  · intro right
    refine .inl fun top => silent (right.throws.mpr (.inr (.inl (Int.le_of_eq top.symm))))
  intro condition
  have small : value < 256 ^ n.bytes := by omega
  have right : WritesBytes written buffer index start n.bytes value := by
    rw [done]
    exact writesBytes_of_digits covers n.pos (by omega) fun i _ _ => unsignedDigit_emod (by omega) i
  have whole := right.value_eq
  rw [Int.emod_eq_of_lt (by omega) small] at whole
  refine ⟨.inr ⟨⟨_, right.returns⟩, ?_⟩, fun thrown => absurd thrown silent, ?_⟩
  · rw [reads _ (right.length_le covers), whole]
  · omega

end IoJs.Buffer
