import IoJs.DecodedSize

/-!
# Strings that V8 keeps outside its heap

A string is kept inside the heap of V8, or outside it, with one or with two bytes for each code
unit. `StringBytes` reads the memory of an external string itself, and `StringBytes::Size` tells the
size of that memory, whatever the encoding.
-/

namespace IoJs.Buffer

open IoJs.Stream IoJs.RegExp List Option

/-- How a string is kept. A short string of two bytes for each code unit has a hint if one would be
enough. -/
inductive Storage where
  | internal
  | oneByte
  | twoByte (hint : Bool)
  deriving DecidableEq

namespace Storage

/-- `is_extern && str->IsOneByte()` -/
def externOneByte : Storage → Bool
  | .internal => false
  | .oneByte => true
  | .twoByte hint => hint

/-- `is_extern && !str->IsOneByte()` -/
def externTwoByte : Storage → Bool
  | .twoByte hint => !hint
  | _ => false

end Storage

/-- A string as it is kept -/
structure Str where
  units : JSString
  storage : Storage
  narrow : storage.externOneByte = true → ∀ unit ∈ units, unit.toNat < 256

/-- A code unit in memory -/
def wordBytes (bigEndian : Bool) (unit : UInt16) : List UInt8 :=
  if bigEndian then [(unit >>> 8).toUInt8, unit.toUInt8] else [unit.toUInt8, (unit >>> 8).toUInt8]

/-- `dst[i] = dst[i] << 8 | dst[i] >> 8`, of all code units; half of one is left as it is. -/
def swapBytes : List UInt8 → List UInt8
  | a :: b :: rest => b :: a :: swapBytes rest
  | rest => rest

/-- The encoding that `Buffer.prototype.write` uses; it knows no other names. -/
def writeEncoding (name : JSString) : Option Encoding :=
  let name := toLowerCase name
  if name = js "hex" then some .hex
  else if name = js "utf8" ∨ name = js "utf-8" then some .utf8
  else if name = js "ascii" then some .ascii
  else if name = js "binary" then some .binary
  else if name = js "base64" then some .base64
  else if name = js "ucs2" ∨ name = js "ucs-2" ∨ name = js "utf16le" ∨ name = js "utf-16le" then
    some .ucs2
  else none

/-- The name of an encoding, where it may be empty -/
def encodingName (name : JSString) : JSString := if name = [] then js "utf8" else name

namespace Str

/-- The same string, inside the heap -/
def inside (s : Str) : Str :=
  { units := s.units, storage := .internal, narrow := fun narrow => absurd narrow (by decide) }

section Platform

variable (bigEndian : Bool)

/-- `GetExternalParts` -/
def external (s : Str) : Option (List UInt8) :=
  match s.storage with
  | .internal => none
  | .oneByte => some (oneByte s.units)
  | .twoByte _ => some (s.units.flatMap (wordBytes bigEndian))

/-- `StringBytes::Size`; an encoding that is 'buffer' is like 'binary'. -/
def size (s : Str) (encoding : Encoding) : Nat :=
  match s.external bigEndian with
  | some data => data.length
  | none => Buffer.size s.units encoding

/-- The characters of an encoding of bytes as text: those in memory, or those of `String::Value` -/
def source (s : Str) : List UInt16 :=
  match s.external bigEndian with
  | some data => data.map (·.toUInt16)
  | none => s.units

/-- Code units in the order of bytes that a Buffer has -/
def reorder (bytes : List UInt8) : List UInt8 := if bigEndian then swapBytes bytes else bytes

variable (writeUtf8 : JSString → Nat → List UInt8)

/-- `StringBytes::Write` -/
def write (s : Str) (buflen : Nat) : Encoding → List UInt8
  | .ascii | .binary =>
    if s.storage.externOneByte then ((s.external bigEndian).getD []).take buflen
    else (oneByte s.units).take buflen
  | .utf8 => writeUtf8 s.units buflen
  | .ucs2 =>
    if s.storage.externTwoByte then
      reorder bigEndian (((s.external bigEndian).getD []).take buflen)
    else reorder bigEndian ((s.units.take (buflen / 2)).flatMap (wordBytes bigEndian))
  | .base64 => base64Decode buflen (s.source bigEndian)
  | .hex => (hexDecode (s.source bigEndian)).take buflen

/-- `Buffer.byteLength` -/
def byteLength (s : Str) (name : JSString) : Nat :=
  if name = js "ascii" ∨ name = js "binary" ∨ name = js "raw" then s.units.length
  else if name = js "ucs2" ∨ name = js "ucs-2" ∨ name = js "utf16le" ∨ name = js "utf-16le" then
    s.units.length * 2
  else if name = js "hex" then s.units.length / 2
  else s.size bigEndian (parseEncoding name .utf8)

/-- `new Buffer(s, name)`: as many bytes as have been written. It throws when the encoding is
unknown, and when half a byte is left over. -/
def fromString (s : Str) (name : JSString) : Option (List UInt8) :=
  let name := encodingName name
  match writeEncoding name with
  | some encoding =>
    if encoding = .hex ∧ s.units.length % 2 ≠ 0 then none
    else some (s.write bigEndian writeUtf8 (s.byteLength bigEndian name) encoding)
  | none => none

end Platform

end Str

/-- Nothing shows how a string is kept. -/
structure Alike (bigEndian : Bool) (writeUtf8 : JSString → Nat → List UInt8) (s : Str)
    (encoding : Encoding) : Prop where
  size : s.size bigEndian encoding = s.inside.size bigEndian encoding
  write : ∀ buflen, s.write bigEndian writeUtf8 buflen encoding =
    s.inside.write bigEndian writeUtf8 buflen encoding
  fromString : ∀ name, writeEncoding (encodingName name) = some encoding →
    s.fromString bigEndian writeUtf8 name = s.inside.fromString bigEndian writeUtf8 name

/-- The strings and the encodings that are read alike -/
def ReadAlike (s : Str) (encoding : Encoding) : Prop :=
  s.units = [] ∨ match s.storage, encoding with
    | .internal, _ => True
    | .oneByte, .ascii => True
    | .oneByte, .binary => True
    | .oneByte, .utf8 => ∀ unit ∈ s.units, unit.toNat < 0x80
    | .twoByte _, .utf8 => (utf8Write s.units).length = 2 * s.units.length
    | .twoByte hint, .ucs2 => hint = true
    | _, _ => False

section Platform

variable {bigEndian : Bool} {writeUtf8 : JSString → Nat → List UInt8} {s : Str}
  {encoding : Encoding}

theorem length_wordBytes (units : JSString) :
    (units.flatMap (wordBytes bigEndian)).length = 2 * units.length := by
  induction units with
  | nil => rfl
  | cons unit units ih =>
    have word : (wordBytes bigEndian unit).length = 2 := by
      rw [wordBytes]
      split_ifs
      · rfl
      · rfl
    rw [flatMap_cons, length_append, ih, word, length_cons]
    omega

theorem map_oneByte {units : JSString} (narrow : ∀ unit ∈ units, unit.toNat < 256) :
    (oneByte units).map (·.toUInt16) = units := by
  rw [oneByte, List.map_map]
  refine (map_congr_left fun unit mem => ?_).trans (List.map_id units)
  apply UInt16.toNat_inj.mp
  have small := narrow unit mem
  simp only [Function.comp_apply, UInt8.toNat_toUInt16, UInt16.toNat_toUInt8, id_eq]
  omega

theorem size_external (s : Str) (encoding : Encoding) : s.size bigEndian encoding =
      match s.storage with
      | .internal => Buffer.size s.units encoding
      | .oneByte => s.units.length
      | .twoByte _ => 2 * s.units.length := by
  rw [Str.size, Str.external]
  cases s.storage with
  | internal => rfl
  | oneByte => exact length_map _
  | twoByte hint => exact length_wordBytes s.units

theorem base64DecodedSize_lt {text : JSString} (filled : text ≠ []) :
    base64DecodedSize text < text.length := by
  have some_ : 0 < text.length := length_pos_iff.mpr filled
  have less := length_unpadded_le text
  rw [base64DecodedSize_eq, base64DecodedSizeFast_eq]
  split_ifs
  · exact some_
  · omega

theorem writeEncoding_eq {name : JSString} (known : writeEncoding name = some encoding) :
    parseEncoding name .utf8 = encoding := by
  simp only [writeEncoding] at known
  simp only [parseEncoding]
  generalize toLowerCase name = lower at known ⊢
  split_ifs at known with h1 h2 h3 h4 h5 h6
  · subst h1
    exact some.inj known
  · obtain rfl | rfl := h2
    · exact some.inj known
    · exact some.inj known
  · subst h3
    exact some.inj known
  · subst h4
    exact some.inj known
  · subst h5
    exact some.inj known
  obtain rfl | rfl | rfl | rfl := h6
  · exact some.inj known
  · exact some.inj known
  · exact some.inj known
  · exact some.inj known

theorem Alike.of_size_write (size : s.size bigEndian encoding = s.inside.size bigEndian encoding)
    (write : ∀ buflen, s.write bigEndian writeUtf8 buflen encoding =
      s.inside.write bigEndian writeUtf8 buflen encoding) :
    Alike bigEndian writeUtf8 s encoding where
  size := size
  write := write
  fromString name known := by
    have length : s.byteLength bigEndian (encodingName name) =
        s.inside.byteLength bigEndian (encodingName name) := by
      rw [Str.byteLength, Str.byteLength, writeEncoding_eq known, size]
      rfl
    rw [Str.fromString, Str.fromString]
    simp only [known, length, write]
    rfl

theorem size_of_empty (empty : s.units = []) : s.size bigEndian encoding = 0 := by
  rw [size_external, empty]
  cases s.storage with
  | internal => cases encoding <;> rfl
  | oneByte => rfl
  | twoByte hint => rfl

theorem write_of_empty (empty : s.units = []) (buflen : Nat) :
    s.write bigEndian writeUtf8 buflen encoding =
      if encoding = .utf8 then writeUtf8 [] buflen else [] := by
  have nothing : (s.external bigEndian).getD [] = [] := by
    rw [Str.external, empty]
    cases s.storage with
    | internal => rfl
    | oneByte => rfl
    | twoByte hint => rfl
  have source : s.source bigEndian = [] := by
    rw [Str.source]
    cases found : s.external bigEndian with
    | none => exact empty
    | some data =>
      rw [found] at nothing
      exact congrArg _ nothing
  have ordered : Str.reorder bigEndian [] = [] := by
    cases bigEndian with
    | true => rfl
    | false => rfl
  cases encoding with
  | ascii | binary =>
    have bytes : oneByte [] = [] := rfl
    simp only [Str.write, nothing, empty, bytes, take_nil, ite_self]
    rfl
  | utf8 => rw [Str.write, empty, if_pos rfl]
  | ucs2 =>
    simp only [Str.write, nothing, empty, take_nil, flatMap_nil, ordered, ite_self]
    rfl
  | base64 =>
    rw [Str.write, source]
    cases buflen <;> rfl
  | hex =>
    rw [Str.write, source]
    exact take_nil

theorem Alike.of_empty (empty : s.units = []) : Alike bigEndian writeUtf8 s encoding := by
  have empty' : s.inside.units = [] := empty
  apply Alike.of_size_write
  · rw [size_of_empty empty, size_of_empty empty']
  intro buflen
  rw [write_of_empty empty, write_of_empty empty']

theorem alike_oneByte (storage : s.storage = .oneByte) (filled : s.units ≠ []) :
    Alike bigEndian writeUtf8 s encoding ↔ encoding = .ascii ∨ encoding = .binary ∨
        encoding = .utf8 ∧ ∀ unit ∈ s.units, unit.toNat < 0x80 := by
  have some_ : 0 < s.units.length := length_pos_iff.mpr filled
  have size : s.size bigEndian encoding = s.units.length := by rw [size_external, storage]
  have data : (s.external bigEndian).getD [] = oneByte s.units := by
    rw [Str.external, storage]
    rfl
  constructor
  · intro alike
    have same : s.units.length = Buffer.size s.units encoding := by
      rw [← size, alike.size]
      rfl
    cases encoding with
    | ascii => exact .inl rfl
    | binary => exact .inr (.inl rfl)
    | utf8 => exact .inr (.inr ⟨rfl, (length_utf8Write s.units).2.mp same.symm⟩)
    | ucs2 | hex =>
      rw [Buffer.size] at same
      omega
    | base64 => exact absurd same (Nat.ne_of_gt (base64DecodedSize_lt filled))
  rintro (rfl | rfl | ⟨rfl, ascii⟩)
  · refine Alike.of_size_write size fun buflen => ?_
    simp only [Str.write, storage, Storage.externOneByte, if_true, data]
    rfl
  · refine Alike.of_size_write size fun buflen => ?_
    simp only [Str.write, storage, Storage.externOneByte, if_true, data]
    rfl
  refine Alike.of_size_write ?_ fun buflen => rfl
  rw [size]
  exact ((length_utf8Write s.units).2.mpr ascii).symm

theorem length_write_one (storage : s.storage = .twoByte false) (filled : s.units ≠ []) :
    (s.write bigEndian writeUtf8 1 .ucs2).length = 1 := by
  obtain ⟨unit, rest, units⟩ := exists_cons_of_ne_nil filled
  rw [Str.write, Str.external, storage, units]
  cases bigEndian with
  | true => rfl
  | false => rfl

/-- Two bytes for each code unit: the size is wrong unless the encoding takes two bytes for each,
too.
-/
theorem alike_twoByte {hint : Bool} (storage : s.storage = .twoByte hint) (filled : s.units ≠ []) :
    Alike bigEndian writeUtf8 s encoding ↔
      encoding = .utf8 ∧ (utf8Write s.units).length = 2 * s.units.length ∨
        encoding = .ucs2 ∧ hint = true := by
  have some_ : 0 < s.units.length := length_pos_iff.mpr filled
  have size : s.size bigEndian encoding = 2 * s.units.length := by rw [size_external, storage]
  constructor
  · intro alike
    have same : 2 * s.units.length = Buffer.size s.units encoding := by
      rw [← size, alike.size]
      rfl
    cases encoding with
    | ascii | binary | hex =>
      rw [Buffer.size] at same
      omega
    | utf8 => exact .inl ⟨rfl, same.symm⟩
    | ucs2 =>
      refine .inr ⟨rfl, ?_⟩
      cases hint with
      | true => rfl
      | false =>
        have written := congrArg List.length (alike.write 1)
        rw [length_write_one storage filled, Str.write, Str.inside] at written
        have nothing : (Str.reorder bigEndian []).length = 0 := by
          cases bigEndian with
          | true => rfl
          | false => rfl
        exact absurd (written.trans nothing) (by decide)
    | base64 =>
      have less := base64DecodedSize_lt filled
      rw [Buffer.size] at same
      omega
  rintro (⟨rfl, utf8⟩ | ⟨rfl, rfl⟩)
  · refine Alike.of_size_write ?_ fun buflen => rfl
    rw [size]
    exact utf8.symm
  refine Alike.of_size_write ?_ fun buflen => ?_
  · rw [size]
    exact Nat.mul_comm _ _
  simp only [Str.write, storage]
  rfl

end Platform

/-- **When nothing shows how a string is kept**: exactly for the strings and encodings of
`ReadAlike`, on each platform. -/
theorem alike_iff (bigEndian : Bool) (writeUtf8 : JSString → Nat → List UInt8) (s : Str)
    (encoding : Encoding) : Alike bigEndian writeUtf8 s encoding ↔ ReadAlike s encoding := by
  by_cases filled : s.units = []
  · exact ⟨fun _ => .inl filled, fun _ => Alike.of_empty filled⟩
  unfold ReadAlike
  rw [or_iff_right filled]
  cases storage : s.storage with
  | internal =>
    refine ⟨fun _ => trivial, fun _ => Alike.of_size_write ?_ fun buflen => ?_⟩
    · rw [size_external, storage]
      rfl
    have same : s.inside = s := by
      obtain ⟨units, kept, narrow⟩ := s
      subst storage
      rfl
    rw [same]
  | oneByte =>
    rw [alike_oneByte storage filled]
    cases encoding <;> simp
  | twoByte hint =>
    rw [alike_twoByte storage filled]
    cases encoding <;> simp

/-- A million times 'é', as `toString('binary')` gives it: in UTF-8 it has twice as many bytes as
its memory. -/
theorem not_alike_of_latin1 :
    ¬∀ (bigEndian : Bool) (writeUtf8 : JSString → Nat → List UInt8) (s : Str) (encoding : Encoding),
      Alike bigEndian writeUtf8 s encoding := by
  intro claim
  have narrow : ∀ unit ∈ List.replicate 1031913 (0xE9 : UInt16), unit.toNat < 256 := by
    intro unit mem
    rw [eq_of_mem_replicate mem]
    decide
  have alike :=
    (claim false (fun text _ => utf8Write text) ⟨_, .oneByte, fun _ => narrow⟩ .utf8).size
  rw [size_external] at alike
  have ascii := (length_utf8Write (List.replicate 1031913 (0xE9 : UInt16))).2.mp alike.symm
  exact absurd (ascii 0xE9 (mem_replicate.mpr ⟨by decide, rfl⟩)) (by decide)

end IoJs.Buffer
