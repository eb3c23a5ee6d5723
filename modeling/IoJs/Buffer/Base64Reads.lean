import IoJs.Buffer.Codecs
import IoJs.Library.Reading

/-!
# What `base64_decode` reads

`base64_decode` is a template: its source is a text of one byte or of two for each character. Here
it is a program that reads the source, as the code does: each of its four loops looks at a character
before it looks at whether there is one, and looks up in the table what a cast to a byte leaves of
the character.
-/

namespace IoJs.Buffer.Base64Reads

open IoJs.Library IoJs.Library.Reading IoJs.Stream List Option

/-! ## The template -/

/-- `TypeName`: the types that a source may have, with the code of a character -/
class CharType (T : Type) where
  code : T → UInt16

/-- `char` -/
instance : CharType UInt8 := ⟨UInt8.toUInt16⟩

/-- `uint16_t` -/
instance : CharType UInt16 := ⟨id⟩

open CharType

/-- A source: a pointer, with a length. The length of a string is an `int`, and no string has `2³¹`
characters. -/
structure Source (T : Type) where
  memory : ℕ → T
  srcLen : ℕ
  small : srcLen < 2 ^ 31

variable {T : Type} [CharType T] {unit : UInt16} {rest : List UInt16} {d : UInt8}

/-- `while (unbase64(*src) < 0 && src < srcEnd) src++, remaining--;` -/
def skip (srcEnd src : ℕ) (remaining : Int) : Reading T (ℕ × Int) := do
  let unit ← cell src
  if unbase64 (code unit) < 0 ∧ src < srcEnd then skip srcEnd (src + 1) (toInt32 (remaining - 1))
  else return (src, remaining)
termination_by srcEnd - src

/-- One of the four loops, with the test after it and the digit. Before the digit number `k` of a
group, `remaining` counts the `k` digits that have been taken. -/
def digit (srcEnd : ℕ) (stop : Int → Bool) (src : ℕ) (remaining : Int) :
    Reading T (Option (UInt8 × ℕ × Int)) := do
  let (src, remaining) ← skip srcEnd src remaining
  if stop remaining then return none
  else
    let unit ← cell src
    if code unit = base64Pad then return none
    else return some (UInt8.ofNat (unbase64 (code unit)).toNat, src + 1, remaining)

/-- `base64_decode`, from `src` on, where there is room for `room` bytes -/
def base64Decode (srcEnd room src : ℕ) : Reading T (List UInt8) :=
  if src < srcEnd ∧ 0 < room then do
    let remaining := toInt32 (srcEnd - src)
    match ← digit srcEnd (· == 0) src remaining with
    | none => return []
    | some (a, src, remaining) =>
      match ← digit srcEnd (· ≤ 1) src remaining with
      | none => return []
      | some (b, src, remaining) =>
        let first := a <<< 2 ||| (b &&& 0x30) >>> 4
        if room = 1 then return [first]
        else
          match ← digit srcEnd (· ≤ 2) src remaining with
          | none => return [first]
          | some (c, src, remaining) =>
            let second := (b &&& 0x0F) <<< 4 ||| (c &&& 0x3C) >>> 2
            if room = 2 then return [first, second]
            else
              match ← digit srcEnd (· ≤ 3) src remaining with
              | none => return [first, second]
              | some (d, src, _) =>
                let third := (c &&& 0x03) <<< 6 ||| d &&& 0x3F
                let rest ← base64Decode srcEnd (room - 3) src
                return first :: second :: third :: rest
  else return []
termination_by room

/-- `base64_decode(buf, len, src, srcLen)` -/
def Source.decode (s : Source T) (len : ℕ) : Reading T (List UInt8) := base64Decode s.srcLen len 0

/-- The characters from `src` on -/
def text (memory : ℕ → T) (srcEnd src : ℕ) : List UInt16 :=
  (List.range' src (srcEnd - src)).map fun i => code (memory i)

/-- The characters of a source -/
def Source.units (s : Source T) : List UInt16 := text s.memory s.srcLen 0

variable {memory : ℕ → T} {srcEnd src room : ℕ} {remaining : Int}

theorem text_of_lt (inside : src < srcEnd) :
    text memory srcEnd src = code (memory src) :: text memory srcEnd (src + 1) := by
  obtain ⟨n, length⟩ := Nat.exists_eq_add_of_lt inside
  have here : srcEnd - src = n + 1 := by omega
  have next : srcEnd - (src + 1) = n := by omega
  rw [text, text, here, next, range'_succ, map_cons]

theorem text_of_le (outside : srcEnd ≤ src) : text memory srcEnd src = [] := by
  rw [text, Nat.sub_eq_zero_of_le outside]
  rfl

theorem toInt32_of_lt {n : Int} (lower : -2 ^ 31 ≤ n) (upper : n < 2 ^ 31) : toInt32 n = n := by
  apply Int.bmod_eq_of_le <;> omega

/-! ## Digits -/

theorem ne_pad_of_digit (digit : ¬unbase64 unit < 0) : unit ≠ base64Pad := by
  rintro rfl
  exact digit (by decide)

theorem skip_spec (memory : ℕ → T) (remaining : Int) (inside : src ≤ srcEnd)
    (lower : -2 ^ 31 ≤ remaining - (srcEnd - src))
    (upper : remaining < 2 ^ 31) :
    ∃ found, src ≤ found ∧ found ≤ srcEnd ∧
      run memory (skip srcEnd src remaining) = (found, remaining - (found - src)) ∧
      (Below memory srcEnd (skip srcEnd src remaining) ↔ found < srcEnd) ∧
      (found < srcEnd → code (memory found) ≠ base64Pad) ∧
      nextDigit (text memory srcEnd src) = if found < srcEnd then
          some (UInt8.ofNat (unbase64 (code (memory found))).toNat, text memory srcEnd (found + 1))
        else none := by
  induction src, remaining using skip.induct (T := T) srcEnd with
  | case1 src remaining ih =>
    rw [skip, run_bind, run_cell, below_bind, below_cell, run_cell]
    by_cases more : src < srcEnd
    · rw [text_of_lt more, nextDigit]
      by_cases other : unbase64 (code (memory src)) < 0
      · have cast : toInt32 (remaining - 1) = remaining - 1 := toInt32_of_lt (by omega) (by omega)
        obtain ⟨found, least, most, result, below, digit, next⟩ :=
          ih (memory src) ⟨other, more⟩ more
          (by rw [cast]; push_cast; omega) (by rw [cast]; omega)
        refine ⟨found, by omega, most, ?_, ?_, digit, ?_⟩
        · grind
        · rw [if_pos ⟨other, more⟩, below]
          exact and_iff_right more
        · rw [if_pos other, next]
      refine ⟨src, le_rfl, inside, ?_, ?_, fun _ => ne_pad_of_digit other, ?_⟩
      · rw [if_neg fun both => other both.1, run_pure, sub_self, sub_zero]
      · rw [if_neg fun both => other both.1]
        exact and_iff_left (below_pure _)
      · simp [other, ne_pad_of_digit other, more]
    refine ⟨src, le_rfl, inside, ?_, ?_, fun less => absurd less more, ?_⟩
    · rw [if_neg fun both => more both.2, run_pure, sub_self, sub_zero]
    · exact iff_of_false (fun both => more both.1) more
    rw [text_of_le (Nat.le_of_not_lt more), if_neg more]
    rfl

theorem countP_of_none {src : List UInt16} (none : nextDigit src = none) :
    src.countP isBase64Digit = 0 := by
  obtain ⟨-, count⟩ | ⟨digit, rest, found, -⟩ := countP_nextDigit src
  · exact count
  · simp [none] at found

theorem countP_of_some {src : List UInt16} (found : nextDigit src = some (d, rest)) :
    src.countP isBase64Digit = rest.countP isBase64Digit + 1 := by
  obtain ⟨none, -⟩ | ⟨digit, rest', same, count⟩ := countP_nextDigit src
  · simp [found] at none
  obtain ⟨-, rfl⟩ := Prod.mk.inj (some.inj (found.symm.trans same))
  exact count

/-- Does a source end with a digit, if it does not end at once? -/
def endsWithDigit (src : List UInt16) : Bool := src.getLast?.all isBase64Digit

theorem endsWithDigit_cons (unit : UInt16) {src : List UInt16} (more : src ≠ []) :
    endsWithDigit (unit :: src) = endsWithDigit src := by
  obtain ⟨next, rest, rfl⟩ := exists_cons_of_ne_nil more
  simp [endsWithDigit]

theorem endsWithDigit_of_some {src : List UInt16}
    (found : nextDigit src = some (d, rest)) : endsWithDigit src = endsWithDigit rest := by
  induction src with
  | nil => cases found
  | cons unit src ih =>
    rw [nextDigit] at found
    split at found
    · have more : src ≠ [] := by
        rintro rfl
        cases found
      rw [endsWithDigit_cons unit more]
      exact ih found
    rename_i digit
    rw [if_neg (ne_pad_of_digit digit)] at found
    obtain ⟨-, rfl⟩ := Prod.mk.inj (some.inj found)
    by_cases more : src = []
    · subst more
      exact decide_eq_true (Int.not_lt.mp digit)
    · exact endsWithDigit_cons unit more

theorem endsWithDigit_of_none {src : List UInt16} (more : src ≠ [])
    (none : src.countP isBase64Digit = 0) : endsWithDigit src = false := by
  have last := countP_eq_zero.mp none (src.getLast more) (getLast_mem more)
  rw [endsWithDigit, List.getLast?_eq_some_getLast more, all_some]
  exact Bool.eq_false_iff.mpr last

theorem digit_spec (memory : ℕ → T) (stop : Int → Bool) {k : ℕ} (inside : src ≤ srcEnd)
    (small : srcEnd - src + k < 2 ^ 31)
    (count : remaining = (srcEnd - src : ℤ) + k) (stops : ∀ n : ℕ, stop (n + k) = decide (n = 0)) :
    (nextDigit (text memory srcEnd src) = none ∧ (text memory srcEnd src).countP isBase64Digit = 0 ∧
      run memory (digit srcEnd stop src remaining) = none ∧
      ¬Below memory srcEnd (digit srcEnd stop src remaining)) ∨
    ∃ d src', nextDigit (text memory srcEnd src) = some (d, text memory srcEnd src') ∧
      (text memory srcEnd src).countP isBase64Digit =
        (text memory srcEnd src').countP isBase64Digit + 1 ∧
      endsWithDigit (text memory srcEnd src) = endsWithDigit (text memory srcEnd src') ∧
      run memory (digit srcEnd stop src remaining) =
        some (d, src', (srcEnd - src' : ℤ) + (k + 1 : ℕ)) ∧
      src < src' ∧ src' ≤ srcEnd ∧ Below memory srcEnd (digit srcEnd stop src remaining) := by
  obtain ⟨found, least, most, result, below, other, next⟩ :=
    skip_spec memory remaining inside (by omega) (by omega)
  have left : remaining - (found - src) = ((srcEnd - found : ℕ) : ℤ) + k := by omega
  rw [digit, run_bind, below_bind, result, below, left]
  by_cases more : found < srcEnd
  · have goes : stop (((srcEnd - found : ℕ) : ℤ) + k) = false := by
      rw [stops, decide_eq_false (by omega)]
    rw [if_pos more] at next
    refine .inr ⟨_, found + 1, next, countP_of_some next, endsWithDigit_of_some next, ?_,
      Nat.lt_succ_of_le least, more, ?_⟩
    · have taken : ((srcEnd - found : ℕ) : ℤ) + k =
          (srcEnd - (found + 1 : ℕ) : ℤ) + (k + 1 : ℕ) := by omega
      dsimp only
      rw [goes, if_neg Bool.false_ne_true, run_bind, run_cell, if_neg (other more), run_pure, taken]
    dsimp only
    rw [goes, if_neg Bool.false_ne_true, below_bind, below_cell, run_cell, if_neg (other more)]
    exact ⟨more, more, below_pure _⟩
  have ends : stop (((srcEnd - found : ℕ) : ℤ) + k) = true := by
    rw [stops, decide_eq_true (by omega)]
  rw [if_neg more] at next
  refine .inl ⟨next, countP_of_none next, ?_, fun both => more both.1⟩
  dsimp only
  rw [ends, if_pos rfl, run_pure]

/-! ## The end of the source -/

/-- The digits that are sought for `len` bytes -/
def needed (len : ℕ) : ℕ := (4 * len + 2) / 3

/-- No digit is sought that is not there: there are enough of them, or the source is at its end
where a group begins. -/
def Covered (len : ℕ) (src : List UInt16) : Prop :=
  needed len ≤ src.countP isBase64Digit ∨
    src.countP isBase64Digit % 4 = 0 ∧ endsWithDigit src = true

theorem covered_group {src : List UInt16}
    (count : src.countP isBase64Digit = rest.countP isBase64Digit + 4)
    (ends : endsWithDigit src = endsWithDigit rest) :
    Covered (room + 3) src ↔ Covered room rest := by
  have group : needed (room + 3) = needed room + 4 := by
    unfold needed
    omega
  unfold Covered
  rw [count, ends, group, Nat.add_mod_right, Nat.add_le_add_iff_right]

theorem not_covered {src : List UInt16} (fewer : src.countP isBase64Digit < needed room)
    (group : src.countP isBase64Digit % 4 ≠ 0) : ¬Covered room src := by
  rintro (enough | ⟨whole, -⟩)
  · exact absurd enough (Nat.not_le_of_lt fewer)
  · exact group whole

theorem not_covered_of_none {src : List UInt16} (pos : 0 < room) (more : src ≠ [])
    (none : src.countP isBase64Digit = 0) : ¬Covered room src := by
  rintro (enough | ⟨-, ends⟩)
  · rw [none, needed] at enough
    omega
  · simp [endsWithDigit_of_none more none] at ends

theorem base64Decode_end (done : ¬(src < srcEnd ∧ 0 < room)) :
    run memory (base64Decode srcEnd room src) = IoJs.base64Decode room (text memory srcEnd src) ∧
      (Below memory srcEnd (base64Decode srcEnd room src) ↔
        Covered room (text memory srcEnd src)) := by
  have empty_or : text memory srcEnd src = [] ∨ room = 0 := by
    rcases Nat.lt_or_ge src srcEnd with lt | le
    · exact .inr (Nat.eq_zero_of_not_pos fun pos => done ⟨lt, pos⟩)
    · exact .inl (text_of_le le)
  rw [base64Decode, if_neg done, run_pure]
  refine ⟨?_, iff_of_true (below_pure _) ?_⟩
  · rcases empty_or with empty | rfl
    · rw [empty]
      cases room <;> rfl
    · rw [IoJs.base64Decode]
  rcases empty_or with empty | rfl
  · rw [empty]
    exact .inr ⟨rfl, rfl⟩
  · exact .inl (Nat.zero_le _)

theorem base64Decode_spec (small : srcEnd - src < 2 ^ 31) (inside : src ≤ srcEnd) :
    run memory (base64Decode srcEnd room src) = IoJs.base64Decode room (text memory srcEnd src) ∧
      (Below memory srcEnd (base64Decode srcEnd room src) ↔
        Covered room (text memory srcEnd src)) := by
  induction room using Nat.strong_induction_on generalizing src with
  | _ room ih =>
    by_cases more : src < srcEnd ∧ 0 < room
    · obtain ⟨more, pos⟩ := more
      have filled : text memory srcEnd src ≠ [] := by grind [text_of_lt]
      have cast : toInt32 (srcEnd - src) = (srcEnd - src : ℤ) + (0 : ℕ) := by
        rw [toInt32_of_lt (by omega) (by omega), Nat.cast_zero, add_zero]
      rw [base64Decode, if_pos ⟨more, pos⟩, IoJs.base64Decode.eq_def]
      obtain ⟨room, rfl⟩ := Nat.exists_eq_succ_of_ne_zero pos.ne'
      -- Each digit is there, or the group ends here.
      rw [run_bind, below_bind]
      obtain ⟨none, count, result, beyond⟩ |
          ⟨a, src1, found, count1, ends1, result, later1, inside1, within⟩ :=
        digit_spec memory (· == 0) (k := 0) inside (by omega) cast
          (fun n => by rw [Bool.eq_iff_iff]; simp)
      · simp only [none, result]
        exact ⟨rfl, iff_of_false (fun both => beyond both.1) (not_covered_of_none pos filled count)⟩
      simp only [found, result, within, true_and, run_bind, below_bind]
      obtain ⟨none, count, result, beyond⟩ |
          ⟨b, src2, found, count2, ends2, result, later2, inside2, within⟩ :=
        digit_spec memory (· ≤ 1) (k := 1) inside1 (by omega) rfl (fun n => by simp)
      · simp only [none, result]
        exact ⟨rfl, iff_of_false (fun both => beyond both.1)
          (not_covered (by rw [needed]; omega) (by omega))⟩
      simp only [found, result, within, true_and]
      rcases room with _ | room
      · exact ⟨rfl, iff_of_true (below_pure _) (.inl (by rw [needed]; omega))⟩
      rw [if_neg (by omega), run_bind, below_bind]
      obtain ⟨none, count, result, beyond⟩ |
          ⟨c, src3, found, count3, ends3, result, later3, inside3, within⟩ :=
        digit_spec memory (· ≤ 2) (k := 2) inside2 (by omega) rfl (fun n => by simp)
      · simp only [none, result]
        exact ⟨rfl, iff_of_false (fun both => beyond both.1)
          (not_covered (by rw [needed]; omega) (by omega))⟩
      simp only [found, result, within, true_and]
      rcases room with _ | room
      · exact ⟨rfl, iff_of_true (below_pure _) (.inl (by rw [needed]; omega))⟩
      rw [if_neg (by omega), run_bind, below_bind]
      obtain ⟨none, count, result, beyond⟩ |
          ⟨d, src4, found, count4, ends4, result, later4, inside4, within⟩ :=
        digit_spec memory (· ≤ 3) (k := 3) inside3 (by omega) rfl (fun n => by simp)
      · simp only [none, result]
        exact ⟨rfl, iff_of_false (fun both => beyond both.1)
          (not_covered (by rw [needed]; omega) (by omega))⟩
      -- The group is whole.
      obtain ⟨rest, below⟩ := @ih room (by omega) src4 (by omega) inside4
      simp only [found, result, within, true_and, run_bind, below_bind]
      have group : Covered (room + 3) (text memory srcEnd src) ↔
          Covered room (text memory srcEnd src4) :=
        covered_group (by omega) (ends1.trans (ends2.trans (ends3.trans ends4)))
      have left : (room + 1 + 1).succ - 3 = room := by omega
      rw [left, rest]
      refine ⟨rfl, Iff.trans ?_ group.symm⟩
      simp [← below]
    · exact base64Decode_end more

/-! ## Characters behind the first 256 -/

/-- What a cast to a byte leaves of a character -/
def cast (unit : UInt16) : UInt16 := unit.toUInt8.toUInt16

theorem unbase64_cast (unit : UInt16) : unbase64 (cast unit) = unbase64 unit := by
  simp only [unbase64, cast, UInt8.toUInt8_toUInt16]

theorem cast_lt (unit : UInt16) : (cast unit).toNat < 256 := UInt8.toNat_lt unit.toUInt8

theorem nextDigit_map_cast (src : List UInt16) :
    nextDigit (src.map cast) = (nextDigit src).map fun found => (found.1, found.2.map cast) := by
  induction src with
  | nil => rfl
  | cons unit src ih =>
    rw [map_cons, nextDigit, nextDigit, unbase64_cast]
    split
    · exact ih
    rename_i digit
    have digit' : ¬unbase64 (cast unit) < 0 := by rwa [unbase64_cast]
    simp [ne_pad_of_digit digit, ne_pad_of_digit digit']

theorem base64Decode_map_cast (room : ℕ) (src : List UInt16) :
    IoJs.base64Decode room (src.map cast) = IoJs.base64Decode room src := by
  induction room using Nat.strong_induction_on generalizing src with
  | _ room ih =>
    cases room with
    | zero => rw [IoJs.base64Decode, IoJs.base64Decode]
    | succ room =>
      rw [IoJs.base64Decode.eq_def, IoJs.base64Decode.eq_def]
      simp only [nextDigit_map_cast]
      cases nextDigit src with
      | none => rfl
      | some first =>
        simp only [map_some, nextDigit_map_cast]
        cases nextDigit first.2 with
        | none => rfl
        | some second =>
          cases room with
          | zero => rfl
          | succ room =>
            simp only [map_some, nextDigit_map_cast]
            cases nextDigit second.2 with
            | none => rfl
            | some third =>
              cases room with
              | zero => rfl
              | succ room =>
                simp only [map_some, nextDigit_map_cast]
                cases nextDigit third.2 with
                | none => rfl
                | some => simp only [map_some, ih room (by omega)]

theorem narrow_map_cast (src : List UInt16) : ∀ unit ∈ src.map cast, unit.toNat < 256 := by
  intro unit mem
  obtain ⟨unit, -, rfl⟩ := List.mem_map.mp mem
  exact cast_lt unit

theorem base64Decode_eq_cast (room : ℕ) (src : List UInt16) :
    IoJs.base64Decode room src = (base64Decoding (src.map cast)).take room := by
  rw [← base64Decode_map_cast, base64Decode_eq room (narrow_map_cast src)]

/-! ## The decoding -/

/-- `base64_decode` does what it is for: it stays within the source and the room, and writes what
the characters of the alphabets mean. -/
structure Decodes (s : Source T) (len : ℕ) : Prop where
  inside : Below s.memory s.srcLen (s.decode len)
  fits : (run s.memory (s.decode len)).length ≤ len
  output : run s.memory (s.decode len) = (base64Decoding s.units).take len

/-- The decoder that reads the source gives the first `len` bytes of what the units decode to. -/
theorem run_decode (s : Source T) (len : ℕ) :
    run s.memory (s.decode len) = (base64Decoding (s.units.map cast)).take len := by
  rw [← base64Decode_eq_cast]
  exact (base64Decode_spec s.small (Nat.zero_le _)).1

theorem below_decode (s : Source T) (len : ℕ) :
    Below s.memory s.srcLen (s.decode len) ↔ Covered len s.units :=
  (base64Decode_spec s.small (Nat.zero_le _)).2

/-- **When `base64_decode` is right**: no digit is sought that is not there, and what the cast makes
digits of changes nothing in the bytes there is room for. -/
theorem base64_reads_iff (s : Source T) (len : ℕ) : Decodes s len ↔ Covered len s.units ∧
    (base64Decoding (s.units.map cast)).take len = (base64Decoding s.units).take len := by
  constructor
  · intro decodes
    exact ⟨(below_decode s len).mp decodes.inside, (run_decode s len).symm.trans decodes.output⟩
  rintro ⟨covered, same⟩
  refine ⟨(below_decode s len).mpr covered, ?_, (run_decode s len).trans same⟩
  rw [run_decode]
  exact length_take_le len _

/-- Four times `U+0141` are three bytes, and the end of a line behind a group is not the last thing
that is looked at. -/
theorem not_decodes : (¬∀ (s : Source UInt16) (len : ℕ), Decodes s len) ∧
    ¬∀ (s : Source UInt8) (len : ℕ), Decodes s len := by
  constructor
  · intro decodes
    let s : Source UInt16 := ⟨fun _ => 0x141, 4, by decide⟩
    have output := (decodes s 3).output
    rw [run_decode] at output
    exact absurd output (by decide)
  intro decodes
  let s : Source UInt8 := ⟨fun i => [0x59, 0x57, 0x4A, 0x6A, 0x0A].getD i 0, 5, by decide⟩
  have covered := (below_decode s 4).mp (decodes s 4).inside
  rcases covered with enough | ⟨-, ends⟩
  · exact absurd enough (by decide)
  · exact absurd ends (by decide)

end IoJs.Buffer.Base64Reads
