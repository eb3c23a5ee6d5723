import IoJs.Library.Blocks
import IoJs.Library.Endian

/-!
# ASCII, a word at a time

`StringBytes` looks for bytes that are not ASCII, and takes the highest bit from all bytes. From 16
bytes on it does so a word at a time; the bytes before the first whole word and behind the last one
are left to the loops over bytes.
-/

namespace IoJs.Buffer.ForceAscii

open IoJs.Library IoJs.Library.Blocks List

/-- The size of `uintptr_t` -/
inductive WordSize where
  | four
  | eight

structure Platform where
  wordSize : WordSize
  bigEndian : Bool

namespace Platform

def bytesPerWord (p : Platform) : ℕ :=
  match p.wordSize with
  | .four => 4
  | .eight => 8

def alignMask (p : Platform) : ℕ := p.bytesPerWord - 1

/-- The mask with the highest bit of each byte -/
def mask (p : Platform) : ℕ :=
  match p.wordSize with
  | .four => 0x80808080
  | .eight => 0x8080808080808080

/-- `~x` -/
def complement (p : Platform) (x : ℕ) : ℕ := 2 ^ (8 * p.bytesPerWord) - 1 - x

/-- The word at an offset -/
def loadWord (p : Platform) (memory : ℕ → UInt8) (offset : ℕ) : ℕ :=
  Endian.load p.bigEndian (load memory offset p.bytesPerWord)

end Platform

/-! ## `contains_non_ascii` -/

def containsNonAsciiSlow (buf : ℕ → UInt8) (len : ℕ) : Bool :=
  (List.range len).any fun i => buf i &&& 0x80 ≠ 0

/-- The loop over words, and the remainder -/
def containsNonAsciiWords (p : Platform) (src : ℕ → UInt8) (len : ℕ) : Bool :=
  if (List.range (len / p.bytesPerWord)).any fun i =>
      p.loadWord src (i * p.bytesPerWord) &&& p.mask ≠ 0 then
    true
  else
    let remainder := len &&& p.alignMask
    if 0 < remainder then
      let offset := len - remainder
      containsNonAsciiSlow (fun i => src (offset + i)) remainder
    else false

/-- `contains_non_ascii`, of the bytes at an address -/
def containsNonAscii (p : Platform) (address : ℕ) (src : ℕ → UInt8) (len : ℕ) : Bool :=
  if len < 16 then containsNonAsciiSlow src len
  else
    let unaligned := address &&& p.alignMask
    if 0 < unaligned then
      let n := p.bytesPerWord - unaligned
      if containsNonAsciiSlow src n then true
      else containsNonAsciiWords p (fun i => src (n + i)) (len - n)
    else containsNonAsciiWords p src len

/-! ## `force_ascii` -/

/-- What is read at an offset of the source, and written at one of the destination -/
inductive Move where
  | byte (source target : ℕ)
  | word (source target : ℕ)

def forceAsciiSlow (src dst len : ℕ) : List Move :=
  (List.range len).map fun i => .byte (src + i) (dst + i)

/-- The loop over words, and the remainder -/
def forceAsciiWords (p : Platform) (src dst len : ℕ) : List Move :=
  let remainder := len &&& p.alignMask
  let words := (List.range (len / p.bytesPerWord)).map fun i =>
    Move.word (src + i * p.bytesPerWord) (dst + i * p.bytesPerWord)
  if 0 < remainder then
    let offset := len - remainder
    words ++ forceAsciiSlow (src + offset) (dst + offset) remainder
  else words

/-- `force_ascii`, for two addresses -/
def forceAscii (p : Platform) (srcAddress dstAddress len : ℕ) : List Move :=
  if len < 16 then forceAsciiSlow 0 0 len
  else
    let srcUnalign := srcAddress &&& p.alignMask
    let dstUnalign := dstAddress &&& p.alignMask
    if 0 < srcUnalign then
      if srcUnalign = dstUnalign then
        let unalign := p.bytesPerWord - srcUnalign
        -- it is not `unalign` that is subtracted
        forceAsciiSlow 0 0 unalign ++ forceAsciiWords p unalign unalign (len - srcUnalign)
      else forceAsciiSlow 0 0 len
    else forceAsciiWords p 0 0 len

namespace Move

/-- `dst[i] = src[i] & 0x7f`, and `dstw[i] = srcw[i] & mask` -/
def apply (p : Platform) (src dst : ℕ → UInt8) : Move → ℕ → UInt8
  | byte source target => Blocks.store dst target [src source &&& 0x7F]
  | word source target =>
    Blocks.store dst target <| Endian.store p.bigEndian p.bytesPerWord <|
      p.loadWord src source &&& p.complement p.mask

/-- How many bytes are read and written -/
def count (p : Platform) : Move → ℕ
  | byte _ _ => 1
  | word _ _ => p.bytesPerWord

def source : Move → ℕ
  | byte source _ => source
  | word source _ => source

def target : Move → ℕ
  | byte _ target => target
  | word _ target => target

end Move

/-- The destination after some moves -/
def run (p : Platform) (src dst : ℕ → UInt8) (moves : List Move) : ℕ → UInt8 :=
  moves.foldl (Move.apply p src) dst

/-! ## What they are for -/

/-- Exactly the first bytes are written, without their highest bits, and no others are read. -/
structure Forces (p : Platform) (moves : List Move) (len : ℕ) : Prop where
  writes : ∀ src dst address,
    run p src dst moves address = if address < len then src address &&& 0x7F else dst address
  inside : ∀ move ∈ moves, move.source + move.count p ≤ len ∧ move.target + move.count p ≤ len

/-- Both functions do what the loops over bytes do. -/
structure Agrees (p : Platform) (srcAddress dstAddress len : ℕ) : Prop where
  contains : ∀ src, containsNonAscii p srcAddress src len = containsNonAsciiSlow src len
  forces : Forces p (forceAscii p srcAddress dstAddress len) len

variable {p : Platform} {src dst : ℕ → UInt8} {source target len srcAddress dstAddress : ℕ}
  {moves later : List Move}

/-! ## Words -/

namespace Platform

section

variable (p : Platform)

theorem bytesPerWord_cases : p.bytesPerWord = 4 ∨ p.bytesPerWord = 8 := by
  rw [bytesPerWord]
  cases p.wordSize with
  | four => exact .inl rfl
  | eight => exact .inr rfl

theorem bytesPerWord_pos : 0 < p.bytesPerWord := by
  have cases_ := p.bytesPerWord_cases
  omega

@[simp]
theorem and_alignMask (x : ℕ) : x &&& p.alignMask = x % p.bytesPerWord := by
  rw [alignMask]
  obtain four | eight := p.bytesPerWord_cases
  · rw [four]
    exact Nat.and_two_pow_sub_one_eq_mod x 2
  rw [eight]
  exact Nat.and_two_pow_sub_one_eq_mod x 3

theorem mask_eq : p.mask = Endian.repeated p.bytesPerWord 0x80 := by
  rw [mask, bytesPerWord]
  cases p.wordSize <;> rfl

theorem complement_mask : p.complement p.mask = Endian.repeated p.bytesPerWord 0x7F := by
  rw [complement, mask, bytesPerWord]
  cases p.wordSize <;> rfl

theorem loadWord_and_mask (memory : ℕ → UInt8) (offset : ℕ) :
    decide (p.loadWord memory offset &&& p.mask ≠ 0) =
      containsNonAsciiSlow (fun i => memory (offset + i)) p.bytesPerWord := by
  have bits := Endian.load_and_ne_zero 0x80 (load memory offset p.bytesPerWord) p.bigEndian
  rw [length_load, ← mask_eq] at bits
  rw [loadWord, containsNonAsciiSlow, Bool.eq_iff_iff, decide_eq_true_eq, bits,
    List.any_eq_true, load]
  simp only [List.mem_map, exists_exists_and_eq_and, decide_eq_true_eq]

end

end Platform

/-! ## Looking for bytes -/

theorem containsNonAsciiSlow_add (src : ℕ → UInt8) (m n : ℕ) : containsNonAsciiSlow src (m + n) =
    (containsNonAsciiSlow src m || containsNonAsciiSlow (fun i => src (m + i)) n) := by
  simp only [containsNonAsciiSlow, range_add, any_append, List.any_map, Function.comp_def]

theorem any_loadWord (p : Platform) (src : ℕ → UInt8) (n : ℕ) :
    ((List.range n).any fun i => p.loadWord src (i * p.bytesPerWord) &&& p.mask ≠ 0) =
      containsNonAsciiSlow src (n * p.bytesPerWord) := by
  induction n with
  | zero => rw [Nat.zero_mul]; rfl
  | succ n ih =>
    rw [range_succ, any_append, ih, Nat.succ_mul, containsNonAsciiSlow_add,
      ← p.loadWord_and_mask, any_cons, any_nil, Bool.or_false]

theorem containsNonAsciiWords_eq (p : Platform) (src : ℕ → UInt8) (len : ℕ) :
    containsNonAsciiWords p src len = containsNonAsciiSlow src len := by
  have whole : len = len / p.bytesPerWord * p.bytesPerWord + len % p.bytesPerWord :=
    (Nat.div_add_mod' len p.bytesPerWord).symm
  have offset : len - len % p.bytesPerWord = len / p.bytesPerWord * p.bytesPerWord := by omega
  simp only [containsNonAsciiWords, any_loadWord, p.and_alignMask, offset]
  conv_rhs => rw [whole, containsNonAsciiSlow_add]
  cases containsNonAsciiSlow src (len / p.bytesPerWord * p.bytesPerWord) with
  | true => rfl
  | false =>
    rw [if_neg Bool.false_ne_true, Bool.false_or]
    by_cases some_ : 0 < len % p.bytesPerWord
    · rw [if_pos some_]
    rw [if_neg some_, Nat.eq_zero_of_not_pos some_]
    rfl

theorem containsNonAscii_eq (p : Platform) (address : ℕ) (src : ℕ → UInt8) (len : ℕ) :
    containsNonAscii p address src len = containsNonAsciiSlow src len := by
  have sizes := p.bytesPerWord_cases
  simp only [containsNonAscii, p.and_alignMask, containsNonAsciiWords_eq]
  split_ifs with short unaligned found
  · rfl
  · have whole : len = (p.bytesPerWord - address % p.bytesPerWord) +
        (len - (p.bytesPerWord - address % p.bytesPerWord)) := by omega
    rw [whole, containsNonAsciiSlow_add, found, Bool.true_or]
  · have whole : len = (p.bytesPerWord - address % p.bytesPerWord) +
        (len - (p.bytesPerWord - address % p.bytesPerWord)) := by omega
    conv_rhs => rw [whole, containsNonAsciiSlow_add]
    rw [Bool.eq_false_iff.mpr found, Bool.false_or]
  · rfl

/-! ## Taking the highest bits away -/

/-- Bytes without their highest bits -/
def masked (src : ℕ → UInt8) (start count : ℕ) : List UInt8 :=
  (load src start count).map (· &&& 0x7F)

@[simp]
theorem length_masked (src : ℕ → UInt8) (start count : ℕ) :
    (masked src start count).length = count := by
  rw [masked, length_map, length_load]

theorem masked_add (src : ℕ → UInt8) (start m n : ℕ) :
    masked src start (m + n) = masked src start m ++ masked src (start + m) n := by
  rw [masked, load_add, map_append, masked, masked]

theorem Move.apply_eq (move : Move) : move.apply p src dst =
    Blocks.store dst move.target (masked src move.source (move.count p)) := by
  cases move with
  | byte => rfl
  | word source =>
    have masks := Endian.store_and 0x7F (load src source p.bytesPerWord) p.bigEndian
    rw [length_load, ← p.complement_mask] at masks
    rw [Move.apply, Platform.loadWord, masks]
    rfl

/-- Some moves write as many such bytes. -/
def Writes (p : Platform) (moves : List Move) (source target count : ℕ) : Prop :=
  (∀ src dst, run p src dst moves = Blocks.store dst target (masked src source count)) ∧
    ∀ move ∈ moves, move.source + move.count p ≤ source + count ∧
      move.target + move.count p ≤ target + count

theorem writes_nil (source target : ℕ) : Writes p [] source target 0 :=
  ⟨fun _ dst => (store_nil dst target).symm, forall_mem_nil _⟩

theorem writes_move (move : Move) : Writes p [move] move.source move.target (move.count p) := by
  refine ⟨fun src dst => move.apply_eq, ?_⟩
  rw [forall_mem_singleton]
  exact ⟨Nat.le_refl _, Nat.le_refl _⟩

theorem Writes.append {m n : ℕ} (first : Writes p moves source target m)
    (second : Writes p later (source + m) (target + m) n) :
    Writes p (moves ++ later) source target (m + n) := by
  obtain ⟨written, inside⟩ := first
  obtain ⟨written', inside'⟩ := second
  constructor
  · intro src dst
    have before := written src dst
    rw [run] at before
    rw [run, foldl_append, before]
    have after := written' src (Blocks.store dst target (masked src source m))
    rw [run] at after
    have behind := store_append dst target (masked src source m) (masked src (source + m) n)
    rw [length_masked] at behind
    rw [after, behind, masked_add]
  rw [forall_mem_append]
  constructor
  · intro move mem
    have le := inside move mem
    omega
  intro move mem
  have le := inside' move mem
  omega

theorem writes_range {size : ℕ} {move : ℕ → Move}
    (each : ∀ i, Writes p [move i] (source + i * size) (target + i * size) size) (n : ℕ) :
    Writes p ((List.range n).map move) source target (n * size) := by
  induction n with
  | zero => rw [Nat.zero_mul]; exact writes_nil source target
  | succ n ih =>
    rw [range_succ, map_append, Nat.succ_mul]
    exact ih.append (each n)

theorem writes_forceAsciiSlow (p : Platform) (source target len : ℕ) :
    Writes p (forceAsciiSlow source target len) source target len := by
  have each (i : ℕ) : Writes p [.byte (source + i) (target + i)] (source + i * 1)
    (target + i * 1) 1 := by
    rw [Nat.mul_one]
    exact writes_move (.byte (source + i) (target + i))
  have all := writes_range each len
  rwa [Nat.mul_one] at all

theorem writes_forceAsciiWords (p : Platform) (source target len : ℕ) :
    Writes p (forceAsciiWords p source target len) source target len := by
  have whole : len / p.bytesPerWord * p.bytesPerWord + len % p.bytesPerWord = len :=
    Nat.div_add_mod' len p.bytesPerWord
  have offset : len - len % p.bytesPerWord = len / p.bytesPerWord * p.bytesPerWord := by omega
  have words := writes_range (fun i => writes_move (p := p)
    (.word (source + i * p.bytesPerWord) (target + i * p.bytesPerWord))) (len / p.bytesPerWord)
  simp only [forceAsciiWords, p.and_alignMask, offset]
  split_ifs with some_
  · have all := words.append (writes_forceAsciiSlow p _ _ (len % p.bytesPerWord))
    rwa [whole] at all
  rw [Nat.eq_zero_of_not_pos some_, Nat.add_zero] at whole
  rwa [whole] at words

/-! ## How much is written -/

/-- The bytes before the first word are written, although both addresses are off a boundary. -/
def Peeled (p : Platform) (srcAddress dstAddress len : ℕ) : Prop :=
  16 ≤ len ∧ 0 < srcAddress % p.bytesPerWord ∧
    srcAddress % p.bytesPerWord = dstAddress % p.bytesPerWord

instance : Decidable (Peeled p srcAddress dstAddress len) := inferInstanceAs (Decidable (_ ∧ _ ∧ _))

/-- How many bytes `force_ascii` writes -/
def written (p : Platform) (srcAddress dstAddress len : ℕ) : ℕ :=
  if Peeled p srcAddress dstAddress len then
    len + p.bytesPerWord - 2 * (srcAddress % p.bytesPerWord)
  else len

theorem writes_forceAscii (p : Platform) (srcAddress dstAddress len : ℕ) :
    Writes p (forceAscii p srcAddress dstAddress len) 0 0
      (written p srcAddress dstAddress len) := by
  have sizes := p.bytesPerWord_cases
  have few := Nat.mod_lt srcAddress p.bytesPerWord_pos
  simp only [forceAscii, p.and_alignMask]
  split_ifs with short unaligned same
  · rw [written, if_neg fun peeled => absurd peeled.1 (by omega)]
    exact writes_forceAsciiSlow p 0 0 len
  · rw [written, if_pos ⟨by omega, unaligned, same⟩]
    have all := (writes_forceAsciiSlow p 0 0 (p.bytesPerWord - srcAddress % p.bytesPerWord)).append
      (writes_forceAsciiWords p _ _ (len - srcAddress % p.bytesPerWord))
    rw [Nat.zero_add] at all
    have count : p.bytesPerWord - srcAddress % p.bytesPerWord +
      (len - srcAddress % p.bytesPerWord) =
        len + p.bytesPerWord - 2 * (srcAddress % p.bytesPerWord) := by omega
    rwa [count] at all
  · rw [written, if_neg fun peeled => same peeled.2.2]
    exact writes_forceAsciiSlow p 0 0 len
  rw [written, if_neg fun peeled => unaligned peeled.2.1]
  exact writes_forceAsciiWords p 0 0 len

/-- The moves write each of the first `n` bytes without its highest bit, and nothing else. -/
theorem Writes.run_apply {n : ℕ} (writes : Writes p moves 0 0 n) (src dst : ℕ → UInt8)
    (address : ℕ) :
    run p src dst moves address = if address < n then src address &&& 0x7F else dst address := by
  rw [writes.1]
  split_ifs with inside
  · have here : (masked src 0 n)[address]? = some (src address &&& 0x7F) := by
      rw [masked, List.getElem?_map, getElem?_load inside, Nat.zero_add, Option.map_some]
    have stored : store dst 0 (masked src 0 n) (0 + address) = src address &&& 0x7F :=
      store_inside here
    rwa [Nat.zero_add] at stored
  · rw [store_outside (.inr (by rw [length_masked]; omega))]

theorem Writes.forces_iff {n : ℕ} (writes : Writes p moves 0 0 n) : Forces p moves len ↔
    n = len := by
  constructor
  · intro forces
    by_contra other
    -- the byte at the smaller one of the two ends
    have here := forces.writes (fun _ => 0) (fun _ => 0xFF) (min n len)
    rw [writes.run_apply] at here
    by_cases less : n < len
    · rw [if_neg (by omega), if_pos (by omega)] at here
      exact absurd here (by decide)
    rw [if_pos (by omega), if_neg (by omega)] at here
    exact absurd here (by decide)
  rintro rfl
  refine ⟨writes.run_apply, fun move mem => ?_⟩
  have le := writes.2 move mem
  omega

/-- **Exactly when a word at a time is as good as a byte at a time**: with bytes before the first
word, the address has to be in the middle of a word. -/
theorem agrees_iff (p : Platform) (srcAddress dstAddress len : ℕ) :
    Agrees p srcAddress dstAddress len ↔ len < 16 ∨ srcAddress % p.bytesPerWord = 0 ∨
        srcAddress % p.bytesPerWord ≠ dstAddress % p.bytesPerWord ∨
        2 * (srcAddress % p.bytesPerWord) = p.bytesPerWord := by
  have count : Agrees p srcAddress dstAddress len ↔ written p srcAddress dstAddress len = len := by
    rw [← (writes_forceAscii p srcAddress dstAddress len).forces_iff]
    exact ⟨Agrees.forces,
      fun forces => ⟨fun src => containsNonAscii_eq p srcAddress src len, forces⟩⟩
  rw [count, written]
  split_ifs with peeled
  · obtain ⟨long, unaligned, same⟩ := peeled
    omega
  rw [Peeled] at peeled
  omega

/-- Sixteen bytes at odd addresses: six more are written. -/
theorem not_agrees_odd : ¬ Agrees ⟨.eight, false⟩ 1 1 16 := by
  intro agrees
  have all := (writes_forceAscii ⟨.eight, false⟩ 1 1 16).forces_iff.mp agrees.forces
  exact absurd all (by decide)

end IoJs.Buffer.ForceAscii
