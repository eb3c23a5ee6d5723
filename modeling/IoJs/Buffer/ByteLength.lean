import IoJs.Buffer.Utf8Writer

/-!
# What `Buffer.byteLength` predicts

`Buffer.byteLength` tells how many bytes `new Buffer` will have, without decoding the string. It
compares the name of the encoding with its own list, where case matters, and asks
`StringBytes::Size` about any other name.
-/

namespace IoJs.Buffer

open IoJs.Stream IoJs.RegExp List

/-- `new Buffer(s, name)` -/
def Str.newBuffer (bigEndian : Bool) (s : Str) (name : JSString) : Option (List UInt8) :=
  s.fromString bigEndian (writeUtf8 s.storage.maxSize) name

/-- Are both bytes of a code unit digits of hex? -/
def hexBytes (ch : UInt16) : Prop :=
  (hex2bin ch.toUInt8.toUInt16).isSome ∧ (hex2bin (ch >>> 8).toUInt8.toUInt16).isSome

/-- The strings of which the size is predicted, in an encoding that is called `name`; `lower` says
whether the name is in lower case. -/
def Predicted (s : Str) (lower : Prop) : Encoding → Prop
  | .ascii | .binary =>
    match s.storage with
    | .twoByte hint => hint = true ∨ lower
    | _ => True
  | .utf8 =>
    match s.storage with
    | .internal => True
    | .oneByte => FillsRoom 2 s.units.length s.units
    | .twoByte _ => FillsRoom 3 (2 * s.units.length) s.units
  | .ucs2 =>
    match s.storage with
    | .oneByte => lower ∨ s.units.length % 2 = 0
    | _ => True
  | .base64 =>
    match s.storage with
    | .internal => IsBase64 s.units
    | _ => False
  | .hex =>
    s.units.length % 2 = 0 ∧ match s.storage with
      | .internal => ∀ ch ∈ s.units, (hex2bin ch).isSome
      | .oneByte => lower ∧ ∀ ch ∈ s.units, (hex2bin ch).isSome
      | .twoByte _ => lower ∧ ∀ ch ∈ s.units.take (s.units.length / 2), hexBytes ch

/-- The strings and names for which `Buffer.byteLength` is right -/
def SizeExact (s : Str) (name : JSString) : Prop :=
  match writeEncoding name with
  | none => False
  | some encoding => s.units = [] ∨ Predicted s (toLowerCase name = name) encoding

variable {bigEndian : Bool} {s : Str} {name : JSString} {encoding : Encoding}

/-! ## The prediction -/

theorem byteLength_of_ne (upper : toLowerCase name ≠ name)
    (known : writeEncoding name = some encoding) :
    s.byteLength bigEndian name = s.size bigEndian encoding := by
  have other {known : JSString} (lower : toLowerCase known = known) : name ≠ known := by
    rintro rfl
    exact upper lower
  have raw : name ≠ js "raw" := other (by decide)
  rw [Str.byteLength, writeEncoding_eq known,
    if_neg (by simp only [raw, other (show toLowerCase (js "ascii") = _ by decide),
      other (show toLowerCase (js "binary") = _ by decide), or_self, not_false_eq_true]),
    if_neg (by simp only [other (show toLowerCase (js "ucs2") = _ by decide),
      other (show toLowerCase (js "ucs-2") = _ by decide),
      other (show toLowerCase (js "utf16le") = _ by decide),
      other (show toLowerCase (js "utf-16le") = _ by decide), or_self, not_false_eq_true]),
    if_neg (other (show toLowerCase (js "hex") = _ by decide))]

theorem byteLength_of_eq (lower : toLowerCase name = name)
    (known : writeEncoding name = some encoding) :
    s.byteLength bigEndian name = match encoding with
      | .ascii | .binary => s.units.length
      | .ucs2 => s.units.length * 2
      | .hex => s.units.length / 2
      | .utf8 | .base64 => s.size bigEndian encoding := by
  simp only [writeEncoding, lower] at known
  split_ifs at known with h1 h2 h3 h4 h5 h6
  · cases known
    subst h1
    rfl
  · cases known
    obtain rfl | rfl := h2
    · rfl
    · rfl
  · cases known
    subst h3
    rfl
  · cases known
    subst h4
    rfl
  · cases known
    subst h5
    rfl
  cases known
  obtain rfl | rfl | rfl | rfl := h6
  · rfl
  · rfl
  · rfl
  · rfl

theorem newBuffer_eq (known : writeEncoding name = some encoding) : s.newBuffer bigEndian name =
    if encoding = .hex ∧ s.units.length % 2 ≠ 0 then none
    else
      some (s.write bigEndian (writeUtf8 s.storage.maxSize) (s.byteLength bigEndian name)
        encoding) := by
  have named : name ≠ [] := by
    rintro rfl
    cases known
  rw [Str.newBuffer, Str.fromString, encodingName, if_neg named]
  simp only [known]

/-! ## Each encoding -/

section Encodings

variable {writeUtf8 : JSString → Nat → List UInt8} {room : ℕ}

theorem length_reorder (bytes : List UInt8) : (Str.reorder bigEndian bytes).length =
    bytes.length := by
  rw [Str.reorder]
  split
  · induction bytes using swapBytes.induct with
    | case1 a b rest ih =>
      rw [swapBytes, length_cons, length_cons, ih]
      rfl
    | case2 rest short => rw [swapBytes.eq_2 rest short]
  · rfl

theorem length_write_ascii (one : encoding = .ascii ∨ encoding = .binary) :
    (s.write bigEndian writeUtf8 room encoding).length =
      min room (if s.storage = .twoByte true then 2 * s.units.length else s.units.length) := by
  have text : (oneByte s.units).length = s.units.length := length_map _
  have write : s.write bigEndian writeUtf8 room encoding =
      if s.storage.externOneByte then ((s.external bigEndian).getD []).take room
      else (oneByte s.units).take room := by
    obtain rfl | rfl := one
    · rfl
    · rfl
  rw [write, Str.external]
  cases storage : s.storage with
  | internal | oneByte => simp [Storage.externOneByte, text]
  | twoByte hint =>
    have memory := @length_wordBytes bigEndian s.units
    cases hint with
    | true => simp [Storage.externOneByte, memory]
    | false => simp [Storage.externOneByte, text]

theorem length_write_ucs2 : (s.write bigEndian writeUtf8 room .ucs2).length =
    if s.storage = .twoByte false then min room (2 * s.units.length)
    else 2 * min (room / 2) s.units.length := by
  have write : s.write bigEndian writeUtf8 room .ucs2 = if s.storage.externTwoByte then
        Str.reorder bigEndian (((s.external bigEndian).getD []).take room)
      else Str.reorder bigEndian ((s.units.take (room / 2)).flatMap (wordBytes bigEndian)) := rfl
  have text : ((s.units.take (room / 2)).flatMap (wordBytes bigEndian)).length =
      2 * min (room / 2) s.units.length := by
    rw [length_wordBytes, length_take]
  rw [write, Str.external]
  cases storage : s.storage with
  | internal | oneByte => simp [Storage.externTwoByte, length_reorder, text]
  | twoByte hint =>
    have memory := @length_wordBytes bigEndian s.units
    cases hint with
    | true => simp [Storage.externTwoByte, length_reorder, text]
    | false => simp [Storage.externTwoByte, length_reorder, memory]

end Encodings

theorem byteLength_size (known : writeEncoding name = some encoding)
    (own : encoding = .utf8 ∨ encoding = .base64) :
    s.byteLength bigEndian name = s.size bigEndian encoding := by
  by_cases lower : toLowerCase name = name
  · rw [byteLength_of_eq lower known]
    obtain rfl | rfl := own
    · rfl
    · rfl
  · exact byteLength_of_ne lower known

theorem ascii_exact (known : writeEncoding name = some encoding) (filled : s.units ≠ [])
    (one : encoding = .ascii ∨ encoding = .binary) :
    (s.write bigEndian (writeUtf8 s.storage.maxSize) (s.byteLength bigEndian name)
      encoding).length =
        s.byteLength bigEndian name ↔
      Predicted s (toLowerCase name = name) encoding := by
  have some_ : 0 < s.units.length := length_pos_iff.mpr filled
  have size : s.size bigEndian encoding = match s.storage with
      | .twoByte _ => 2 * s.units.length
      | _ => s.units.length := by
    rw [size_external]
    obtain rfl | rfl := one <;> cases s.storage <;> rfl
  have predicted : Predicted s (toLowerCase name = name) encoding ↔ match s.storage with
      | .twoByte hint => hint = true ∨ toLowerCase name = name
      | _ => True := by
    obtain rfl | rfl := one <;> exact Iff.rfl
  rw [length_write_ascii one, predicted]
  by_cases lower : toLowerCase name = name
  · have formula : s.byteLength bigEndian name = s.units.length := by
      rw [byteLength_of_eq lower known]
      obtain rfl | rfl := one <;> rfl
    rw [formula]
    cases s.storage with
    | internal => simp
    | oneByte => simp
    | twoByte hint =>
      simp only [lower, or_true, iff_true]
      split <;> omega
  rw [byteLength_of_ne lower known, size]
  cases s.storage with
  | internal => simp
  | oneByte => simp
  | twoByte hint =>
    cases hint with
    | true => simp
    | false =>
      simp [lower]
      omega

theorem ucs2_exact (known : writeEncoding name = some .ucs2) :
    (s.write bigEndian (writeUtf8 s.storage.maxSize) (s.byteLength bigEndian name) .ucs2).length =
        s.byteLength bigEndian name ↔
      Predicted s (toLowerCase name = name) .ucs2 := by
  rw [length_write_ucs2, Predicted]
  by_cases lower : toLowerCase name = name
  · rw [byteLength_of_eq lower known]
    cases s.storage with
    | internal =>
      simp
      omega
    | oneByte =>
      simp [lower]
      omega
    | twoByte hint =>
      simp only [iff_true]
      split <;> omega
  rw [byteLength_of_ne lower known, size_external]
  cases s.storage with
  | internal =>
    simp [Buffer.size]
    omega
  | oneByte =>
    simp [lower]
    omega
  | twoByte hint =>
    simp only [iff_true]
    split <;> omega

theorem utf8_exact (known : writeEncoding name = some .utf8) :
    (s.write bigEndian (writeUtf8 s.storage.maxSize) (s.byteLength bigEndian name) .utf8).length =
        s.byteLength bigEndian name ↔
      Predicted s (toLowerCase name = name) .utf8 := by
  have write (room : ℕ) : s.write bigEndian (writeUtf8 s.storage.maxSize) room .utf8 =
      writeUtf8 s.storage.maxSize s.units room := rfl
  have pos : 0 < s.storage.maxSize := by
    unfold Storage.maxSize
    split <;> decide
  have small : ∀ done, ∀ c ∈ s.units, extra done c ≤ s.storage.maxSize := by
    intro done c mem
    cases storage : s.storage with
    | internal | twoByte hint => exact extra_le_three done c
    | oneByte => exact extra_le_two (s.narrow (by rw [storage]; rfl) c mem) done
  rw [write, length_writeUtf8_iff pos small, byteLength_size known (.inl rfl), size_external,
    Predicted]
  cases s.storage with
  | internal => exact iff_of_true (.inl rfl) trivial
  | oneByte => exact Iff.rfl
  | twoByte hint => exact Iff.rfl

theorem base64_exact (known : writeEncoding name = some .base64) (filled : s.units ≠ []) :
    (s.write bigEndian (writeUtf8 s.storage.maxSize) (s.byteLength bigEndian name) .base64).length =
        s.byteLength bigEndian name ↔
      Predicted s (toLowerCase name = name) .base64 := by
  have some_ : 0 < s.units.length := length_pos_iff.mpr filled
  have write (room : ℕ) : s.write bigEndian (writeUtf8 s.storage.maxSize) room .base64 =
      base64Decode room (s.source bigEndian) := rfl
  have memory (data : List UInt8) (length : data.length = s.size bigEndian .base64)
      (more : 0 < data.length) :
      ¬(base64Decode (s.size bigEndian .base64) (data.map (·.toUInt16))).length =
        s.size bigEndian .base64 := by
    have digits := countP_le_length (p := isBase64Digit) (l := data.map (·.toUInt16))
    rw [length_map] at digits
    rw [length_base64Decode]
    omega
  rw [write, byteLength_size known (.inr rfl), Predicted, Str.source, Str.external]
  have size := @size_external bigEndian s .base64
  cases storage : s.storage with
  | internal =>
    rw [storage] at size
    rw [size, eq_comm]
    exact base64DecodedSize_eq_length_iff le_rfl
  | oneByte =>
    rw [storage] at size
    have length : (oneByte s.units).length = s.units.length := length_map _
    exact iff_of_false (memory _ (length.trans size.symm) (by omega)) id
  | twoByte hint =>
    rw [storage] at size
    have length := @length_wordBytes bigEndian s.units
    exact iff_of_false (memory _ (length.trans size.symm) (by omega)) id

/-! ## Hex -/

theorem length_hexDecode_le (text : JSString) : (hexDecode text).length ≤ text.length / 2 := by
  induction text using hexDecode.induct with
  | case1 first second rest a b isFirst isSecond ih =>
    simp only [hexDecode, isFirst, isSecond, length_cons]
    omega
  | case2 first second rest other =>
    rw [hexDecode.eq_def]
    dsimp only
    split
    · rename_i a b isFirst isSecond
      exact absurd isSecond (other a b isFirst)
    · exact Nat.zero_le _
  | case3 text short =>
    rw [hexDecode.eq_2 text short]
    exact Nat.zero_le _

theorem le_length_hexDecode_iff {k : ℕ} {units : JSString} (le : k ≤ units.length) :
    k ≤ (hexDecode ((units.flatMap (wordBytes bigEndian)).map (·.toUInt16))).length ↔
      ∀ ch ∈ units.take k, hexBytes ch := by
  induction units generalizing k with
  | nil =>
    obtain rfl : k = 0 := by simpa using le
    simp
  | cons ch units ih =>
    cases k with
    | zero => simp
    | succ k =>
      have rest := ih (k := k) (Nat.le_of_succ_le_succ le)
      obtain ⟨first, second, word, both⟩ : ∃ first second, wordBytes bigEndian ch =
        [first, second] ∧
          (hexBytes ch ↔ (hex2bin first.toUInt16).isSome ∧ (hex2bin second.toUInt16).isSome) := by
        cases bigEndian with
        | true => exact ⟨_, _, rfl, and_comm⟩
        | false => exact ⟨_, _, rfl, Iff.rfl⟩
      rw [take_succ_cons, forall_mem_cons, ← rest, both, flatMap_cons, word]
      simp only [cons_append, nil_append, map_cons, hexDecode]
      cases isFirst : hex2bin first.toUInt16 with
      | none => simp
      | some a =>
        cases isSecond : hex2bin second.toUInt16 with
        | none => simp
        | some b => simp

theorem hex_exact (known : writeEncoding name = some .hex) (filled : s.units ≠ [])
    (even : s.units.length % 2 = 0) :
    (s.write bigEndian (writeUtf8 s.storage.maxSize) (s.byteLength bigEndian name) .hex).length =
        s.byteLength bigEndian name ↔
      Predicted s (toLowerCase name = name) .hex := by
  have some_ : 0 < s.units.length := length_pos_iff.mpr filled
  have write (room : ℕ) : s.write bigEndian (writeUtf8 s.storage.maxSize) room .hex =
      (hexDecode (s.source bigEndian)).take room := rfl
  have most := length_hexDecode_le s.units
  have digits := length_hexDecode_iff even
  have size := @size_external bigEndian s .hex
  rw [write, length_take, Predicted, and_iff_right even, Str.source, Str.external]
  cases storage : s.storage with
  | internal =>
    rw [storage] at size
    have half : s.byteLength bigEndian name = s.units.length / 2 := by
      by_cases lower : toLowerCase name = name
      · exact byteLength_of_eq lower known
      rw [byteLength_of_ne lower known, size]
      rfl
    dsimp only
    rw [half, ← digits]
    omega
  | oneByte =>
    rw [storage] at size
    have same : (oneByte s.units).map (·.toUInt16) = s.units :=
      map_oneByte (s.narrow (by rw [storage]; rfl))
    dsimp only
    rw [same]
    by_cases lower : toLowerCase name = name
    · have half : s.byteLength bigEndian name = s.units.length / 2 := byteLength_of_eq lower known
      rw [half, and_iff_right lower, ← digits]
      omega
    rw [byteLength_of_ne lower known, size]
    refine iff_of_false ?_ fun both => lower both.1
    dsimp only
    omega
  | twoByte hint =>
    rw [storage] at size
    have bytes := length_hexDecode_le ((s.units.flatMap (wordBytes bigEndian)).map (·.toUInt16))
    rw [length_map, length_wordBytes] at bytes
    dsimp only
    by_cases lower : toLowerCase name = name
    · have half : s.byteLength bigEndian name = s.units.length / 2 := byteLength_of_eq lower known
      rw [half, and_iff_right lower, ← le_length_hexDecode_iff (Nat.div_le_self _ 2),
        min_eq_left_iff]
    rw [byteLength_of_ne lower known, size]
    refine iff_of_false ?_ fun both => lower both.1
    dsimp only
    omega

/-! ## All encodings -/

theorem byteLength_of_empty (known : writeEncoding name = some encoding) (empty : s.units = []) :
    s.byteLength bigEndian name = 0 := by
  by_cases lower : toLowerCase name = name
  · rw [byteLength_of_eq lower known, size_of_empty empty, empty]
    cases encoding <;> rfl
  · rw [byteLength_of_ne lower known, size_of_empty empty]

theorem write_exact (known : writeEncoding name = some encoding)
    (whole : ¬(encoding = .hex ∧ s.units.length % 2 ≠ 0)) :
    (s.write bigEndian (writeUtf8 s.storage.maxSize) (s.byteLength bigEndian name)
      encoding).length =
        s.byteLength bigEndian name ↔
      s.units = [] ∨ Predicted s (toLowerCase name = name) encoding := by
  by_cases empty : s.units = []
  · have nothing : (writeUtf8 s.storage.maxSize [] 0).length = 0 := rfl
    rw [byteLength_of_empty known empty, write_of_empty empty]
    refine iff_of_true ?_ (.inl empty)
    split
    · exact nothing
    · rfl
  rw [or_iff_right empty]
  cases encoding with
  | ascii => exact ascii_exact known empty (.inl rfl)
  | binary => exact ascii_exact known empty (.inr rfl)
  | utf8 => exact utf8_exact known
  | ucs2 => exact ucs2_exact known
  | base64 => exact base64_exact known empty
  | hex => exact hex_exact known empty (by simpa using whole)

/-- **When `Buffer.byteLength` is right**: `new Buffer` then has as many bytes as are predicted. -/
theorem byteLength_exact_iff (bigEndian : Bool) (s : Str) {name : JSString}
    (known : isEncoding name = true) :
    (s.newBuffer bigEndian name).map List.length = some (s.byteLength bigEndian name) ↔
      SizeExact s name := by
  rw [SizeExact]
  have named : name ≠ [] := by
    rintro rfl
    exact absurd known (by decide)
  cases encoded : writeEncoding name with
  | none =>
    have thrown : s.newBuffer bigEndian name = none := by
      rw [Str.newBuffer, Str.fromString, encodingName, if_neg named]
      simp only [encoded]
    rw [thrown]
    exact iff_of_false (by simp) id
  | some encoding =>
    rw [newBuffer_eq encoded]
    by_cases odd : encoding = .hex ∧ s.units.length % 2 ≠ 0
    · rw [if_pos odd]
      refine iff_of_false (by simp) ?_
      obtain ⟨rfl, odd⟩ := odd
      rintro (empty | ⟨even, -⟩)
      · rw [empty] at odd
        exact odd rfl
      · exact odd even
    rw [if_neg odd, Option.map_some, Option.some_inj]
    exact write_exact encoded odd

/-- The string of a text, in the heap -/
def inHeap (text : String) : Str :=
  { units := js text, storage := .internal, narrow := fun narrow => absurd narrow (by decide) }

/-- Four characters of base64 are three bytes. -/
theorem byteLength_exact_group : ((inHeap "YWJj").newBuffer false (js "BASE64")).map List.length =
    some ((inHeap "YWJj").byteLength false (js "BASE64")) := by
  have digits : (unpadded (js "YWJj")).all isBase64Digit = true := by decide
  have whole : IsBase64 (js "YWJj") := .inr ⟨by decide, List.all_eq_true.mp digits⟩
  exact (byteLength_exact_iff false (inHeap "YWJj") (by decide)).mpr (.inr whole)

/-- The end of a line is no byte in base64, but one is predicted for it. -/
theorem line_end_predicted :
    ¬∀ (bigEndian : Bool) (s : Str) (name : JSString), isEncoding name = true →
      (s.newBuffer bigEndian name).map List.length = some (s.byteLength bigEndian name) := by
  intro exact
  exact absurd (exact false (inHeap "YWJj\n") (js "base64") (by decide)) (by decide)

end IoJs.Buffer
