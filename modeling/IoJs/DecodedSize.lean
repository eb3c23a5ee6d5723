import IoJs.Buffer

/-!
# Predicted sizes

`Buffer.byteLength` predicts the number of bytes of a string without decoding it. In hex and in
base64 the prediction is right only for strings that have nothing else in them than digits.
-/

namespace IoJs.Buffer

open IoJs.Stream IoJs.RegExp List Option

/-! ## Hex -/

theorem length_hexDecode_append_le {ch : UInt16} (other : hex2bin ch = none)
    (before after : JSString) :
    (hexDecode (before ++ ch :: after)).length ≤ before.length / 2 := by
  induction before using hexDecode.induct with
  | case1 first second rest a b isFirst isSecond ih =>
    simp only [cons_append, hexDecode, isFirst, isSecond, length_cons]
    omega
  | case2 =>
    rw [cons_append, cons_append, hexDecode.eq_def]
    simp only
    exact Nat.zero_le _
  | case3 before short =>
    have nothing : hexDecode (before ++ ch :: after) = [] := by
      cases before with
      | nil =>
        cases after with
        | nil => rfl
        | cons => simp only [nil_append, hexDecode, other]
      | cons first before =>
        cases before with
        | nil =>
          simp only [cons_append, nil_append, hexDecode, other]
          cases hex2bin first <;> rfl
        | cons => exact absurd rfl (short _ _ _)
    rw [nothing]
    exact Nat.zero_le _

theorem length_hexDecode_iff {text : JSString} (even : text.length % 2 = 0) :
    (hexDecode text).length = text.length / 2 ↔ ∀ ch ∈ text, (hex2bin ch).isSome := by
  constructor
  · intro whole ch mem
    by_contra other
    rw [Bool.not_eq_true, isSome_eq_false_iff, isNone_iff_eq_none] at other
    obtain ⟨before, after, rfl⟩ := append_of_mem mem
    have less := length_hexDecode_append_le other before after
    rw [length_append, length_cons] at whole even
    omega
  intro digits
  induction text using hexDecode.induct with
  | case1 first second rest a b isFirst isSecond ih =>
    simp only [forall_mem_cons] at digits
    simp only [length_cons] at even
    have whole := ih (by omega) digits.2.2
    simp only [hexDecode, isFirst, isSecond, length_cons]
    omega
  | case2 first second rest other =>
    simp only [forall_mem_cons, isSome_iff_exists] at digits
    obtain ⟨⟨a, isFirst⟩, ⟨b, isSecond⟩, -⟩ := digits
    exact absurd isSecond (other a b isFirst)
  | case3 text short =>
    cases text with
    | nil => rfl
    | cons first text =>
      cases text with
      | nil => simp at even
      | cons => exact absurd rfl (short _ _ _)

/-! ## Base64 -/

/-- Is a character a digit of base64? -/
def isBase64Digit (ch : UInt16) : Bool := 0 ≤ unbase64 ch

theorem isBase64Digit_pad : isBase64Digit base64Pad = false := by decide

theorem countP_nextDigit (src : List UInt16) :
    (nextDigit src = none ∧ src.countP isBase64Digit = 0) ∨
      ∃ digit rest, nextDigit src = some (digit, rest) ∧
        src.countP isBase64Digit = rest.countP isBase64Digit + 1 := by
  induction src with
  | nil => exact .inl ⟨rfl, rfl⟩
  | cons unit src ih =>
    rw [nextDigit, countP_cons]
    by_cases skipped : unbase64 unit < 0
    · have no : isBase64Digit unit = false := by
        rw [isBase64Digit, decide_eq_false_iff_not]
        omega
      rw [if_pos skipped, no]
      exact ih
    have yes : isBase64Digit unit = true := by
      rw [isBase64Digit, decide_eq_true_eq]
      omega
    have digit : unit ≠ base64Pad := by
      rintro rfl
      cases yes
    rw [if_neg skipped, if_neg digit, yes]
    exact .inr ⟨_, _, rfl, rfl⟩

theorem length_base64Decode (room : Nat) (src : List UInt16) :
    (base64Decode room src).length = min room (3 * src.countP isBase64Digit / 4) := by
  induction room using Nat.strong_induction_on generalizing src with
  | _ room ih =>
    cases room with
    | zero => rw [base64Decode.eq_def, Nat.zero_min]; rfl
    | succ room =>
      rw [base64Decode.eq_def]
      obtain ⟨none, count⟩ | ⟨a, src1, found, count⟩ := countP_nextDigit src
      · simp only [none, count, length_nil]
        omega
      simp only [found, count]
      obtain ⟨none, count⟩ | ⟨b, src2, found, count⟩ := countP_nextDigit src1
      · simp only [none, count, length_nil]
        omega
      simp only [found, count, length_cons]
      cases room with
      | zero =>
        simp only [length_nil]
        omega
      | succ room =>
        obtain ⟨none, count⟩ | ⟨c, src3, found, count⟩ := countP_nextDigit src2
        · simp only [none, count, length_nil]
          omega
        simp only [found, count, length_cons]
        cases room with
        | zero =>
          simp only [length_nil]
          omega
        | succ room =>
          obtain ⟨none, count⟩ | ⟨d, src4, found, count⟩ := countP_nextDigit src3
          · simp only [none, count, length_nil]
            omega
          simp only [found, count, length_cons]
          rw [ih room (by omega)]
          omega

/-- A string without the padding at its end, of which two characters are looked for -/
def unpadded (src : JSString) : JSString :=
  let src := if src.getLast? = some base64Pad then src.dropLast else src
  if src.getLast? = some base64Pad then src.dropLast else src

theorem base64DecodedSize_eq (src : JSString) :
    base64DecodedSize src = base64DecodedSizeFast (unpadded src).length := by
  rw [base64DecodedSize]
  split
  · rename_i empty
    subst empty
    rfl
  · rfl

variable {src : JSString}

theorem countP_dropLast_pad (padded : src.getLast? = some base64Pad) :
    src.dropLast.countP isBase64Digit = src.countP isBase64Digit := by
  obtain ⟨init, rfl⟩ := List.getLast?_eq_some_iff.mp padded
  rw [dropLast_concat, countP_append, countP_singleton, isBase64Digit_pad]
  rfl

theorem countP_unpadded (src : JSString) :
    (unpadded src).countP isBase64Digit = src.countP isBase64Digit := by
  have once (src : JSString) :
      (if src.getLast? = some base64Pad then src.dropLast else src).countP isBase64Digit =
        src.countP isBase64Digit := by
    split
    · rename_i padded
      exact countP_dropLast_pad padded
    · rfl
  rw [unpadded, once, once]

theorem base64DecodedSizeFast_eq (size : Nat) :
    base64DecodedSizeFast size = if size = 1 then 0 else (3 * size + 1) / 4 := by
  simp only [base64DecodedSizeFast]
  split
  · split <;> omega
  split
  · split <;> omega
  · split <;> split <;> omega

theorem le_base64DecodedSizeFast (size : Nat) : 3 * size / 4 ≤ base64DecodedSizeFast size := by
  rw [base64DecodedSizeFast_eq]
  split <;> omega

theorem length_unpadded_le (src : JSString) : (unpadded src).length ≤ src.length := by
  have once (src : JSString) :
      (if src.getLast? = some base64Pad then src.dropLast else src).length ≤ src.length := by
    split
    · rw [length_dropLast]
      omega
    · exact Nat.le_refl _
  exact (once _).trans (once src)

theorem base64DecodedSizeFast_mono {small large : Nat} (le : small ≤ large) :
    base64DecodedSizeFast small ≤ base64DecodedSizeFast large := by
  rw [base64DecodedSizeFast_eq, base64DecodedSizeFast_eq]
  split <;> split <;> omega

variable {room : Nat}

theorem length_base64Decode_of_le (enough : base64DecodedSize src ≤ room) :
    (base64Decode room src).length = 3 * src.countP isBase64Digit / 4 := by
  rw [base64DecodedSize_eq, ← countP_unpadded] at *
  have least := le_base64DecodedSizeFast (unpadded src).length
  have count := countP_le_length (p := isBase64Digit) (l := unpadded src)
  rw [length_base64Decode, ← countP_unpadded]
  omega

/-- Is the size of a string in base64 predicted as it is? -/
def IsBase64 (src : JSString) : Prop :=
  (unpadded src).length = 1 ∨
    (unpadded src).length % 4 ≠ 1 ∧ ∀ ch ∈ unpadded src, isBase64Digit ch = true

theorem base64DecodedSizeFast_eq_iff {size count : Nat} (le : count ≤ size) :
    3 * count / 4 = base64DecodedSizeFast size ↔ size = 1 ∨ size % 4 ≠ 1 ∧ count = size := by
  simp only [base64DecodedSizeFast]
  split
  · omega
  split
  · omega
  · split <;> omega

theorem base64DecodedSize_eq_length_iff (enough : base64DecodedSize src ≤ room) :
    base64DecodedSize src = (base64Decode room src).length ↔ IsBase64 src := by
  have count := countP_le_length (p := isBase64Digit) (l := unpadded src)
  rw [length_base64Decode_of_le enough, ← countP_unpadded, base64DecodedSize_eq, eq_comm,
    base64DecodedSizeFast_eq_iff count, IsBase64, countP_eq_length]

end IoJs.Buffer
