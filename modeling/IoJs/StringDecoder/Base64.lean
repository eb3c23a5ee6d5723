import IoJs.Base64
import IoJs.StringDecoder.Write

/-!
# Decoding to base64

For base64 the characters of the decoder are groups of three bytes.  Whatever the chunks are,
the decoder has written the encoding of all complete groups so far and keeps the rest.
-/

namespace IoJs.StringDecoder

open IoJs.Stream List

/-- `buffer.toString(encoding)`, with base64 as `base64_encode` has it. -/
def withBase64 (other : ToString) : ToString := fun encoding bytes =>
  if encoding = "base64" then base64Encode bytes else other encoding bytes

theorem new_base64 : new "base64" =
    { encoding := "base64", detector := .base64, surrogateSize := 3,
      charBuffer := List.replicate 6 0, charReceived := 0, charLength := 0 } := by
  decide

variable (other : ToString)
variable {d : StringDecoder} {bytes : List UInt8} {text : JSString}

theorem endsInLead_base64Encode (bytes : List UInt8) : endsInLead (base64Encode bytes) = false := by
  unfold endsInLead
  cases last : (base64Encode bytes).getLast? with
  | none => rfl
  | some unit =>
    have small := lt_of_mem_base64Encode bytes unit (mem_of_getLast? last)
    have lower : ¬ 0xD800 ≤ unit := by
      intro high
      have := UInt16.lt_of_le_of_lt high small
      revert this
      decide
    simp [lower]

/-- The decoder keeps the bytes after the last complete group, and has written the groups. -/
inductive Grouped : StringDecoder → List UInt8 → JSString → Prop where
  | intro {charBuffer pending groups : List UInt8} (keeps : Keeps charBuffer pending)
      (short : pending.length < 3) (aligned : groups.length % 3 = 0) :
      Grouped (keeping (new "base64") charBuffer pending (if pending.length = 0 then 0 else 3))
        (groups ++ pending) (base64Encode groups)

section

variable (buffer : List UInt8)

theorem kept_base64 : (new "base64").kept buffer = buffer.length % 3 := by
  rfl

theorem nextLength_base64 : (new "base64").nextLength buffer =
    if ((new "base64").remainder buffer).length = 0 then 0 else 3 := by
  rw [length_remainder, kept_base64, new_base64]
  rfl

theorem length_body_base64 : ((new "base64").body buffer).length % 3 = 0 := by
  rw [body, length_take, kept_base64]
  omega

end

/-- A chunk is encoded up to its last whole group of three bytes. -/
theorem Grouped.write (grouped : Grouped d bytes text) (chunk : List UInt8) :
    Grouped (write (withBase64 other) d chunk).1 (bytes ++ chunk)
      (text ++ (write (withBase64 other) d chunk).2) := by
  have detects : (new "base64").detector ≠ .passThrough := by rw [new_base64]; decide
  have encodes : ∀ bytes, withBase64 other (new "base64").encoding bytes = base64Encode bytes := by
    intro bytes
    rfl
  rcases grouped with @⟨charBuffer, pending, groups, keeps, short, aligned⟩
  have small : ∀ buffer, ((new "base64").remainder buffer).length < 3 := by
    intro buffer
    rw [length_remainder, kept_base64]
    omega
  by_cases idle : pending.length = 0
  · -- nothing waits, and the groups of the chunk follow the groups before
    obtain rfl := length_eq_zero_iff.mp idle
    obtain ⟨charBuffer', keeps', done⟩ := write_idle_plain (withBase64 other) detects
      chunk keeps.size (by rw [encodes]; exact endsInLead_base64Encode _)
    rw [if_pos idle, done, encodes, nextLength_base64, ← base64Encode_append _ aligned]
    have cut : groups ++ [] ++ chunk =
        groups ++ (new "base64").body chunk ++ (new "base64").remainder chunk := by
      rw [append_nil, append_assoc, body_append_remainder]
    rw [cut]
    refine .intro keeps' (small chunk) ?_
    rw [length_append]
    have := length_body_base64 chunk
    omega
  rw [if_neg idle]
  by_cases more : pending.length + chunk.length < 3
  · -- the group is still not complete
    obtain ⟨charBuffer', keeps', done⟩ := write_short (withBase64 other) detects 3 keeps
      (by decide) more
    have waits : (pending ++ chunk).length ≠ 0 := by
      rw [length_append]
      omega
    have same := Grouped.intro keeps' (by rw [length_append]; exact more) aligned
    rw [if_neg waits] at same
    rw [done, append_nil, append_assoc]
    exact same
  -- the chunk completes the group
  have long : 3 ≤ pending.length + chunk.length := Nat.le_of_not_lt more
  obtain ⟨charBuffer', keeps', done⟩ := write_long_plain (withBase64 other) detects 3 keeps
    (by decide) (by decide) (by omega) long (by rw [encodes]; rfl) rfl rfl
    (by rw [encodes]; exact endsInLead_base64Encode _)
    (by
      rw [encodes, encodes, ← base64Encode_append]
      · exact endsInLead_base64Encode _
      simp only [length_append, length_take]
      omega)
  have group : (pending ++ chunk.take (3 - pending.length)).length = 3 := by
    simp only [length_append, length_take]
    omega
  rw [done, encodes, encodes, nextLength_base64, ← base64Encode_append _ (by omega),
    ← base64Encode_append _ aligned]
  have cut : groups ++ pending ++ chunk = groups ++ (pending ++ chunk.take (3 - pending.length) ++
        (new "base64").body (chunk.drop (3 - pending.length))) ++
        (new "base64").remainder (chunk.drop (3 - pending.length)) := by
    simp only [append_assoc, body_append_remainder, take_append_drop]
  rw [cut]
  refine .intro keeps' (small _) ?_
  rw [length_append, length_append, group]
  have := length_body_base64 (chunk.drop (3 - pending.length))
  omega

theorem Grouped.end_
    (grouped : Grouped d bytes text) : text ++ d.end_ (withBase64 other) = base64Encode bytes := by
  rcases grouped with @⟨charBuffer, pending, groups, keeps, short, aligned⟩
  rw [base64Encode_append _ aligned, StringDecoder.end_]
  congr 1
  show (if pending.length = 0 then []
    else withBase64 other (new "base64").encoding (charBuffer.take pending.length)) = _
  by_cases none : pending.length = 0
  · rw [if_pos none, length_eq_zero_iff.mp none]
    rfl
  rw [if_neg none, keeps.pending, new_base64]
  rfl

/-- **`StringDecoder('base64')` does not depend on the chunks**: the results are the base64
encoding of the bytes, with padding at the very end only, and decoding gives the bytes back. -/
theorem decode_base64 (chunks : List (List UInt8)) :
    decode (withBase64 other) "base64" chunks = base64Encode chunks.flatten ∧
      (∃ digits : List UInt16, (∀ unit ∈ digits, unit ≠ base64Pad) ∧
        decode (withBase64 other) "base64" chunks =
          digits ++ List.replicate ((3 - chunks.flatten.length % 3) % 3) base64Pad) ∧
      base64Decode (base64DecodedSize (decode (withBase64 other) "base64" chunks))
        (decode (withBase64 other) "base64" chunks) = chunks.flatten := by
  have start : Grouped (new "base64") [] [] := by
    have empty : Keeps (List.replicate 6 0) [] := .nil rfl
    have none : Grouped _ ([] ++ []) (base64Encode []) := .intro empty (by decide) rfl
    exact none
  have grouped := writes_invariant (withBase64 other) Grouped
    (fun d bytes text chunk h => h.write other chunk) chunks _ _ _ start
  have whole : decode (withBase64 other) "base64" chunks = base64Encode chunks.flatten := by
    have ended := grouped.end_ other
    simpa [decode] using ended
  rw [whole]
  obtain ⟨digits, pure, -, eq⟩ := base64Encode_eq_append chunks.flatten
  exact ⟨rfl, ⟨digits, pure, eq⟩, base64Decode_base64Encode _⟩

end IoJs.StringDecoder
