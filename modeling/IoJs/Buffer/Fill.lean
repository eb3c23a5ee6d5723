import IoJs.Buffer.Data

/-!
# Filling a Buffer

`fill` writes a pattern again and again: a byte, or the bytes of a string in UTF-8. The native loop
writes it once, and then copies what there is behind itself, which doubles it; last comes as much as
is missing. So the length of what there is remains a multiple of that of the pattern.
-/

namespace IoJs.Buffer

open IoJs.Stream IoJs.RegExp IoJs.Library IoJs.Library.Blocks List

/-- What a Buffer is filled with -/
inductive FillValue where
  | number (value : Number)
  | string (text : Str)

/-! ## `Fill` -/

/-- `while (in_there < length - in_there)`, and the last block -/
def fillLoop (start length ptr inThere : ℕ) (pos : 0 < inThere) : List (Op UInt8) :=
  if inThere < length - inThere then
    .copy ptr start inThere ::
      fillLoop start length (ptr + inThere) (inThere * 2) (Nat.mul_pos pos Nat.two_pos)
  else if inThere < length then [.copy ptr start (length - inThere)]
  else []
termination_by length - inThere

/-- What is done with the bytes of a string -/
def fillString (start length : ℕ) (str : List UInt8) : List (Op UInt8) :=
  if empty : str.length = 0 then []
  else
    let first := Op.store start (str.take (min str.length length))
    if length ≤ str.length then [first]
    else
      first :: fillLoop start length (start + str.length) str.length (Nat.pos_of_ne_zero empty)

/-- `binding.fill`: nothing if its `CHECK` fails. It is called with `start < stop`. -/
def bindingFill (objLength : ℕ) (val : FillValue) (start stop : ℕ) : Option (List (Op UInt8)) :=
  let length := stop - start
  if objLength < length + start then none
  else
    match val with
    | .number value =>
      -- memset
      some [.store start (List.replicate length (UInt8.ofNat (value.toUint32 % 256)))]
    | .string text => some (fillString start length (utf8Value text))

/-! ## `Buffer.prototype.fill` -/

/-- What is passed to `binding.fill`: a string of one character below U+0100 is a number. -/
def FillValue.passed : FillValue → FillValue
  | .number value => .number (.finite value.toUint32)
  | .string text =>
    match text.units with
    | [code] => if code.toNat < 256 then .number (.finite code.toNat) else .string text
    | _ => .string text

/-- `Buffer.prototype.fill`: the operations on the memory. An argument that is missing is
`undefined`. -/
def fill (length : ℕ) (val : FillValue) (start stop : Option Number) :
    Except Thrown (Option (List (Op UInt8))) :=
  let start : ℤ := (start.getD .nan).toInt32
  let stop : ℤ := match stop with
    | none => length
    | some stop => stop.toInt32
  if start < 0 ∨ stop > length then .error (.rangeError "out of range index")
  else if stop ≤ start then .ok (some [])
  else .ok (bindingFill length val.passed start.toNat stop.toNat)

/-! ## The pattern -/

/-- The bytes of a pattern: the low byte of a number, the code of a character below U+0100, or UTF-8
-/
def FillValue.pattern : FillValue → List UInt8
  | .number value => [UInt8.ofInt value.integer]
  | .string text =>
    match text.units with
    | [code] => if code.toNat < 256 then [code.toUInt8] else utf8Write text.units
    | units => utf8Write units

/-- A pattern, again and again -/
def repeated (pattern : List UInt8) (i : ℕ) : UInt8 := pattern.getD (i % pattern.length) 0

theorem repeated_periodic (pattern : List UInt8) (n : ℕ) :
    Function.Periodic (repeated pattern) (pattern.length * n) := by
  intro i
  rw [repeated, repeated, Nat.add_mul_mod_self_left]

variable {pattern : List UInt8}

theorem getElem?_eq_repeated {i : ℕ} (lt : i < pattern.length) :
    pattern[i]? = some (repeated pattern i) := by
  rw [repeated, Nat.mod_eq_of_lt lt, getD_eq_getElem?_getD, List.getElem?_eq_getElem lt,
    Option.getD_some]

/-! ## The loop -/

section Loop

variable {memory : ℕ → UInt8} {pattern : List UInt8} {start length ptr inThere : ℕ}
  {pos : 0 < inThere}

theorem filled_fillLoop (here : ptr = start + inThere) (lt : inThere < length)
    (whole : pattern.length ∣ inThere) (filled : Filled (repeated pattern) memory start inThere) :
    Filled (repeated pattern) (run memory (fillLoop start length ptr inThere pos))
      start length := by
  fun_induction fillLoop start length ptr inThere pos generalizing memory with
  | case1 ptr inThere pos more ih =>
    obtain ⟨n, periods⟩ := whole
    have periodic : Function.Periodic (repeated pattern) inThere :=
      periods ▸ repeated_periodic pattern n
    subst here
    have doubled := filled.copy periodic (Nat.le_refl inThere)
    rw [← Nat.mul_two] at doubled
    exact ih (by omega) (by omega) ⟨n * 2, by rw [periods, Nat.mul_assoc]⟩ doubled
  | case2 ptr inThere pos less more =>
    obtain ⟨n, periods⟩ := whole
    have periodic : Function.Periodic (repeated pattern) inThere :=
      periods ▸ repeated_periodic pattern n
    subst here
    have rest := @Filled.copy _ memory start (length - inThere) _ inThere filled periodic (by omega)
    rwa [Nat.add_sub_cancel' (Nat.le_of_lt lt)] at rest
  | case3 ptr inThere pos less done => exact absurd lt done

theorem within_fillLoop (here : ptr = start + inThere) :
    ∀ op ∈ fillLoop start length ptr inThere pos, op.Within start (start + length) := by
  fun_induction fillLoop start length ptr inThere pos with
  | case1 ptr inThere pos more ih =>
    rw [forall_mem_cons]
    refine ⟨⟨⟨by omega, by omega⟩, Nat.le_refl start, by omega⟩, ih (by omega)⟩
  | case2 ptr inThere pos less more =>
    rw [forall_mem_singleton]
    exact ⟨⟨by omega, by omega⟩, Nat.le_refl start, by omega⟩
  | case3 ptr inThere pos less done => exact forall_mem_nil _

end Loop

/-! ## What is written -/

/-- The bytes that `binding.fill` has of a value -/
def FillValue.bytes : FillValue → List UInt8
  | .number value => [UInt8.ofInt value.integer]
  | .string text => utf8Write text.units

variable {start : ℕ}

theorem filled_first {memory : ℕ → UInt8} {count : ℕ} (le : count ≤ pattern.length) :
    Filled (repeated pattern) (Blocks.store memory start (pattern.take count)) start count := by
  have all : (pattern.take count).length = count := length_take_of_le le
  have written :=
    @filled_store _ memory start (pattern.take count) (repeated pattern) fun i lt => by
    rw [all] at lt
    rw [List.getElem?_take_of_lt lt, getElem?_eq_repeated (Nat.lt_of_lt_of_le lt le)]
  rwa [all] at written

theorem fillString_spec {str : List UInt8} (filled : str ≠ []) (start length : ℕ) :
    (∀ op ∈ fillString start length str, op.Within start (start + length)) ∧
      ∀ memory, Filled (repeated str) (run memory (fillString start length str)) start length := by
  have some_ : str.length ≠ 0 := fun zero => filled (eq_nil_of_length_eq_zero zero)
  rw [fillString, dif_neg some_]
  by_cases long : length ≤ str.length
  · rw [if_pos long, Nat.min_eq_right long]
    refine ⟨?_, fun memory => filled_first long⟩
    rw [forall_mem_singleton, Op.Within, length_take_of_le long]
    exact ⟨Nat.le_refl start, Nat.le_refl _⟩
  have less : str.length < length := by omega
  rw [if_neg long, Nat.min_eq_left (Nat.le_of_lt less)]
  constructor
  · rw [forall_mem_cons, Op.Within, take_length]
    exact ⟨⟨Nat.le_refl start, by omega⟩, within_fillLoop rfl⟩
  intro memory
  exact filled_fillLoop rfl less (Nat.dvd_refl _) (filled_first (Nat.le_refl _))

theorem bindingFill_spec {objLength length : ℕ} {val : FillValue}
    (fits : start + length ≤ objLength) (filled : val.bytes ≠ []) :
    ∃ ops, bindingFill objLength val start (start + length) = some ops ∧
      (∀ op ∈ ops, op.Within start (start + length)) ∧
      ∀ memory, Filled (repeated val.bytes) (run memory ops) start length := by
  have checked : ¬objLength < length + start := by omega
  rw [bindingFill.eq_def]
  simp only [Nat.add_sub_cancel_left, if_neg checked]
  cases val with
  | number value =>
    refine ⟨_, rfl, ?_, fun memory => ?_⟩
    · rw [forall_mem_singleton, Op.Within, length_replicate]
      exact ⟨Nat.le_refl start, Nat.le_refl _⟩
    have low : UInt8.ofNat (value.toUint32 % 256) = UInt8.ofInt value.integer :=
      UInt8.ofNat_mod_size.trans value.ofNat_toUint32
    rw [low]
    intro i lt
    rw [run_cons, run_nil, Op.apply, repeated, FillValue.bytes, length_singleton, Nat.mod_one]
    exact store_inside (by rw [List.getElem?_replicate, if_pos lt]; rfl)
  | string text =>
    simp only [utf8Value_eq]
    exact ⟨_, rfl, fillString_spec filled start length⟩

theorem ofInt_natCast (n : ℕ) : UInt8.ofInt n = UInt8.ofNat n := by
  rw [← UInt8.toNat_inj, UInt8.ofInt, UInt8.toNat_ofNat', UInt8.toNat_ofNat']
  omega

theorem integer_natCast (n : ℕ) : (Number.finite n).integer = n := by
  have kept : Int32.truncate ((n : ℤ) : ℚ) = n := Int32.truncate_intCast n
  exact_mod_cast kept

theorem bytes_passed (val : FillValue) : val.passed.bytes = val.pattern := by
  cases val with
  | number =>
    rw [FillValue.passed, FillValue.bytes, FillValue.pattern, integer_natCast, ofInt_natCast,
      Number.ofNat_toUint32]
  | string text =>
    rw [FillValue.passed, FillValue.pattern]
    split
    · rename_i code same
      by_cases small : code.toNat < 256
      · rw [if_pos small, if_pos small, FillValue.bytes, integer_natCast, ofInt_natCast]
        rfl
      · rw [if_neg small, if_neg small, FillValue.bytes]
    · rfl

/-- **A range is filled with a pattern, again and again**: what is outside of it stays as it is, and
nothing there is read or written. -/
theorem fill_repeated (buffer : Data) (val : FillValue) (pattern : val.pattern ≠ [])
    {start stop : ℕ}
    (some_ : start < stop) (fits : stop ≤ buffer.length) :
    ∃ ops, fill buffer.length val (some (.finite start)) (some (.finite stop)) = .ok (some ops) ∧
      (∀ op ∈ ops, op.Within start stop) ∧
      (∀ i < stop - start, run buffer.memory ops (start + i) = repeated val.pattern i) ∧
      ∀ address, address < start ∨ stop ≤ address →
        run buffer.memory ops address = buffer.memory address := by
  have small := buffer.length_lt
  obtain ⟨length, rfl⟩ := Nat.exists_eq_add_of_le (Nat.le_of_lt some_)
  rw [← bytes_passed] at pattern ⊢
  obtain ⟨ops, native, within, filled⟩ := bindingFill_spec fits pattern
  have first : Number.toInt32 (.finite start) = start := Int32.toInt32_natCast (by omega)
  have last : Number.toInt32 (.finite ((start + length : ℕ) : ℚ)) = (start + length : ℕ) :=
    Int32.toInt32_natCast (by omega)
  refine ⟨ops, ?_, within, ?_, fun address outside => run_of_within within outside⟩
  · rw [fill, Option.getD_some, first, last, if_neg (by omega), if_neg (by omega),
      Int.toNat_natCast,
      Int.toNat_natCast, native]
  rw [Nat.add_sub_cancel_left]
  exact filled buffer.memory

/-- A period of three, which does not divide the range -/
theorem fill_repeated_abc :
    ∃ ops, fill 9 (.string ⟨js "abc", .internal, fun narrow => absurd narrow (by decide)⟩)
        (some (.finite (1 : ℕ))) (some (.finite (9 : ℕ))) = .ok (some ops) ∧
      (∀ op ∈ ops, op.Within 1 9) ∧
      ∀ i < 8, run (fun _ => 0) ops (1 + i) = repeated [0x61, 0x62, 0x63] i := by
  obtain ⟨ops, filled, within, inside, -⟩ :=
    @fill_repeated ⟨fun _ => 0, 9, by decide⟩
      (.string ⟨js "abc", .internal, fun narrow => absurd narrow (by decide)⟩) (by decide) 1 9
      (by decide) (by decide)
  exact ⟨ops, filled, within, inside⟩

end IoJs.Buffer
