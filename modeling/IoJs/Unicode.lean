import IoJs.Stream.Chunk

/-!
# Texts as bytes and as code units

A text is a list of Unicode scalar values. A JavaScript string holds it as UTF-16 code units;
well-formed UTF-8 and UTF-16LE are the bytes of some text.
-/

namespace IoJs

open IoJs.Stream

/-- The UTF-16 code units of a scalar value: one, or a surrogate pair. -/
def utf16EncodeChar (c : Char) : List UInt16 :=
  if c.toNat < 0x10000 then [UInt16.ofNat c.toNat]
  else
    [UInt16.ofNat (0xD800 + (c.toNat - 0x10000) / 0x400),
      UInt16.ofNat (0xDC00 + (c.toNat - 0x10000) % 0x400)]

/-- The JavaScript string of a text. -/
def utf16Encode (text : List Char) : JSString := text.flatMap utf16EncodeChar

/-- The UTF-8 encoding of a text. -/
def utf8Encode (text : List Char) : List UInt8 := text.flatMap String.utf8EncodeChar

@[simp] theorem utf16Encode_nil : utf16Encode [] = [] := rfl

@[simp] theorem utf16Encode_cons (c : Char) (text : List Char) :
    utf16Encode (c :: text) = utf16EncodeChar c ++ utf16Encode text := rfl

@[simp] theorem utf16Encode_append (left right : List Char) :
    utf16Encode (left ++ right) = utf16Encode left ++ utf16Encode right := List.flatMap_append

@[simp] theorem utf8Encode_nil : utf8Encode [] = [] := rfl

@[simp] theorem utf8Encode_cons (c : Char) (text : List Char) :
    utf8Encode (c :: text) = String.utf8EncodeChar c ++ utf8Encode text := rfl

@[simp] theorem utf8Encode_append (left right : List Char) :
    utf8Encode (left ++ right) = utf8Encode left ++ utf8Encode right := List.flatMap_append

/-- Is a code unit a lead surrogate? -/
def isLead (unit : UInt16) : Bool := 0xD800 ≤ unit && unit ≤ 0xDBFF

theorem isLead_eq (unit : UInt16) :
    isLead unit = decide (0xD800 ≤ unit.toNat ∧ unit.toNat ≤ 0xDBFF) := by
  simp only [isLead, UInt16.le_iff_toNat_le, Bool.decide_and]
  rfl

theorem Char.toNat_range (c : Char) : c.toNat < 0xD800 ∨ 0xDFFF < c.toNat ∧ c.toNat < 0x110000 := by
  exact c.valid

theorem utf16EncodeChar_units (c : Char) :
    (∃ unit, utf16EncodeChar c = [unit] ∧ c.toNat < 0x10000 ∧ unit.toNat = c.toNat) ∨
    (∃ lead trail, utf16EncodeChar c = [lead, trail] ∧ 0x10000 ≤ c.toNat ∧
      lead.toNat = 0xD800 + (c.toNat - 0x10000) / 0x400 ∧
      trail.toNat = 0xDC00 + (c.toNat - 0x10000) % 0x400) := by
  have range := Char.toNat_range c
  by_cases plain : c.toNat < 0x10000
  · left
    refine ⟨UInt16.ofNat c.toNat, by rw [utf16EncodeChar, if_pos plain], plain, ?_⟩
    rw [UInt16.toNat_ofNat', Nat.mod_eq_of_lt plain]
  right
  refine ⟨_, _, by rw [utf16EncodeChar, if_neg plain], Nat.le_of_not_lt plain, ?_, ?_⟩
  · rw [UInt16.toNat_ofNat']
    omega
  rw [UInt16.toNat_ofNat']
  omega

theorem utf16EncodeChar_cases (c : Char) :
    (∃ unit, utf16EncodeChar c = [unit] ∧ isLead unit = false) ∨
    (∃ lead trail, utf16EncodeChar c = [lead, trail] ∧ isLead lead = true ∧
      isLead trail = false) := by
  have range := Char.toNat_range c
  obtain ⟨unit, eq, small, value⟩ | ⟨lead, trail, eq, large, first, second⟩ :=
    utf16EncodeChar_units c
  · refine .inl ⟨unit, eq, ?_⟩
    rw [isLead_eq, decide_eq_false_iff_not, value]
    omega
  refine .inr ⟨lead, trail, eq, ?_, ?_⟩
  · rw [isLead_eq, decide_eq_true_eq, first]
    omega
  rw [isLead_eq, decide_eq_false_iff_not, second]
  omega

theorem isLead_getLast_utf16Encode (text : List Char) :
    (utf16Encode text).getLast?.any isLead = false := by
  induction text using List.reverseRecOn with
  | nil => rfl
  | append_singleton text c _ =>
    obtain ⟨unit, eq, plain⟩ | ⟨lead, trail, eq, -, plain⟩ := utf16EncodeChar_cases c
    · simp [eq, plain]
    · simp [eq, plain]

end IoJs
