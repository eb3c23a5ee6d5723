import IoJs.QueryString.Parse

/-!
# The credentials of a URL

`url.js` decodes the text before `@` as a component of a URI, and `format` encodes it again, but for
the first colon. `encodeURIComponent` throws where a text has a lone surrogate
(`wellFormed_of_encodeURIComponent`); `escape` of `querystring.js`, which replaces it, does not.
-/

namespace IoJs.Url

open IoJs.Stream IoJs.RegExp IoJs.Buffer IoJs.QueryString

/-- A unit that is no surrogate -/
def isAlone (c : UInt16) : Bool := c < 0xD800 || 0xE000 ≤ c

/-- `encodeURIComponent`; none where it throws -/
def encodeURIComponent : JSString → Option JSString
  | [] => some []
  | [c] => if isAlone c then some (escaped (Char.ofNat c.toNat)) else none
  | c :: c' :: rest =>
    if isAlone c then
      (encodeURIComponent (c' :: rest)).map (escaped (Char.ofNat c.toNat) ++ ·)
    else if isLead c ∧ isTrail c' then
      (encodeURIComponent rest).map (escaped (Buffer.pair c c') ++ ·)
    else none

/-- `replace(/%3A/i, ':')`, of the first match -/
def replaceColon : JSString → JSString
  | a :: b :: c :: rest =>
    if a = percent ∧ b = unit '3' ∧ (c = unit 'A' ∨ c = unit 'a') then unit ':' :: rest
    else a :: replaceColon (b :: c :: rest)
  | l => l

/-- What `format` writes for `auth`, before the `@` -/
def credentials (auth : JSString) : Option JSString := (encodeURIComponent auth).map replaceColon

variable {rest : JSString}

/-! ## Encoding -/

theorem encodeURIComponent_cons {unit : UInt16} (alone : isAlone unit = true) :
    encodeURIComponent (unit :: rest) =
      (encodeURIComponent rest).map (escaped (Char.ofNat unit.toNat) ++ ·) := by
  cases rest with
  | nil =>
    have single : encodeURIComponent [unit] =
        if isAlone unit then some (escaped (Char.ofNat unit.toNat)) else none := rfl
    rw [single, if_pos alone]
    simp [encodeURIComponent]
  | cons => rw [encodeURIComponent, if_pos alone]

theorem encodeURIComponent_char (c : Char) (rest : JSString) :
    encodeURIComponent (utf16EncodeChar c ++ rest) =
      (encodeURIComponent rest).map (escaped c ++ ·) := by
  have range := Char.toNat_range c
  obtain ⟨unit, eq, -, value⟩ | ⟨lead, trail, eq, large, first, second⟩ := utf16EncodeChar_units c
  · have alone : isAlone unit = true := by
      simp only [isAlone, Bool.or_eq_true, decide_eq_true_eq, UInt16.lt_iff_toNat_lt,
        UInt16.le_iff_toNat_le, value]
      change c.toNat < 0xD800 ∨ 0xE000 ≤ c.toNat
      omega
    rw [eq, List.singleton_append, encodeURIComponent_cons alone, value, Char.ofNat_toNat]
  have surrogate : ¬isAlone lead = true := by
    simp only [isAlone, Bool.or_eq_true, decide_eq_true_eq, UInt16.lt_iff_toNat_lt,
      UInt16.le_iff_toNat_le, first]
    change ¬(0xD800 + (c.toNat - 0x10000) / 0x400 < 0xD800 ∨
      0xE000 ≤ 0xD800 + (c.toNat - 0x10000) / 0x400)
    omega
  have paired : isLead lead = true ∧ isTrail trail = true := by
    rw [isLead_eq, isTrail_eq, first, second, decide_eq_true_eq, decide_eq_true_eq]
    omega
  have number : 0x10000 + (0xD800 + (c.toNat - 0x10000) / 0x400 - 0xD800) * 0x400 +
      (0xDC00 + (c.toNat - 0x10000) % 0x400 - 0xDC00) = c.toNat := by omega
  rw [eq, List.cons_append, List.singleton_append, encodeURIComponent, if_neg surrogate,
    if_pos paired]
  simp only [Buffer.pair, first, second, number, Char.ofNat_toNat]

theorem encodeURIComponent_text (text : List Char) :
    encodeURIComponent (utf16Encode text) = some (text.flatMap escaped) := by
  induction text with
  | nil => rfl
  | cons c text ih =>
    rw [utf16Encode_cons, encodeURIComponent_char, ih, List.flatMap_cons]
    rfl

/-! ## Texts -/

theorem wellFormed_append {s : JSString} (c : Char) (formed : WellFormed s) :
    WellFormed (utf16EncodeChar c ++ s) := by
  obtain ⟨text, rfl⟩ := formed
  exact ⟨c :: text, (utf16Encode_cons c text).symm⟩

theorem utf16EncodeChar_alone {unit : UInt16} (alone : isAlone unit = true) :
    utf16EncodeChar (Char.ofNat unit.toNat) = [unit] := by
  have small := unit.toNat_lt
  have value : (Char.ofNat unit.toNat).toNat = unit.toNat := by
    simp only [isAlone, Bool.or_eq_true, decide_eq_true_eq, UInt16.lt_iff_toNat_lt,
      UInt16.le_iff_toNat_le] at alone
    change unit.toNat < 0xD800 ∨ 0xE000 ≤ unit.toNat at alone
    exact toNat_charOfNat (by omega)
  rw [utf16EncodeChar, value, if_pos small, UInt16.ofNat_toNat]

theorem utf16EncodeChar_pair {lead trail : UInt16} (first : isLead lead = true)
    (second : isTrail trail = true) : utf16EncodeChar (Buffer.pair lead trail) = [lead, trail] := by
  rw [isLead_eq, decide_eq_true_eq] at first
  rw [isTrail_eq, decide_eq_true_eq] at second
  have value : (Buffer.pair lead trail).toNat =
      0x10000 + (lead.toNat - 0xD800) * 0x400 + (trail.toNat - 0xDC00) :=
    toNat_charOfNat (.inr (by omega))
  have high : 0xD800 + ((Buffer.pair lead trail).toNat - 0x10000) / 0x400 = lead.toNat := by omega
  have low : 0xDC00 + ((Buffer.pair lead trail).toNat - 0x10000) % 0x400 = trail.toNat := by omega
  rw [utf16EncodeChar, if_neg (by omega), high, low, UInt16.ofNat_toNat, UInt16.ofNat_toNat]

theorem wellFormed_of_encodeURIComponent {s written : JSString}
    (encoded : encodeURIComponent s = some written) : WellFormed s := by
  fun_induction encodeURIComponent s generalizing written with
  | case1 => exact ⟨[], rfl⟩
  | case2 unit alone =>
    have formed := wellFormed_append (Char.ofNat unit.toNat) ⟨[], rfl⟩
    rwa [utf16EncodeChar_alone alone] at formed
  | case3 unit surrogate => cases encoded
  | case4 unit next rest alone ih =>
    obtain ⟨behind, later, -⟩ := Option.map_eq_some_iff.mp encoded
    have formed := wellFormed_append (Char.ofNat unit.toNat) (ih later)
    rwa [utf16EncodeChar_alone alone] at formed
  | case5 unit next rest surrogate paired ih =>
    obtain ⟨behind, later, -⟩ := Option.map_eq_some_iff.mp encoded
    have formed := wellFormed_append (Buffer.pair unit next) (ih later)
    rwa [utf16EncodeChar_pair paired.1 paired.2] at formed
  | case6 unit next rest surrogate lone => cases encoded

/-- **When `escape` does what `encodeURIComponent` does**: when there is no lone surrogate; where
there is one, `encodeURIComponent` throws. -/
theorem encodeURIComponent_escape_iff (s : JSString) :
    encodeURIComponent s = some (escape s) ↔ WellFormed s := by
  refine ⟨wellFormed_of_encodeURIComponent, ?_⟩
  rintro ⟨text, rfl⟩
  rw [encodeURIComponent_text, escape_utf16Encode]

/-- `escape` takes the character behind a lone surrogate with it. -/
theorem not_encodeURIComponent_escape : ¬∀ s, encodeURIComponent s = some (escape s) := by
  intro all
  exact absurd (all [0xD800, 0x61]) (by decide)

end IoJs.Url
