import CodexRelay.Library.MixedRadix
import CodexRelay.Chain.Types

/-!
Contract: keys of a fixed size that are made of a sequence of words.

Owns:
- `fixed_key::make_from_word_sequence` and `extract_as_byte_array`;
- when the bytes of a key are those of its words, the most significant one first, and that such keys
  are ordered like their words.

Words that do not fill the last word of the key are shifted to its left end. The shift counts bytes
where it should count words.
-/

namespace CodexRelay.Chain.FixedKey

open Library.MixedRadix List

/-- The variables of `set_from_word_sequence`; `data` is what was written through `itr`. -/
structure Packing where
  data : List Nat := []
  tempWord : Nat := 0
  subWordsLeft : Nat

/-- `num_sub_words`, for words of so many bytes. -/
def numSubWords (size : Nat) : Nat := 16 / size

def pack (size : Nat) (packing : Packing) (w : Nat) : Checked Packing :=
  if 1 < packing.subWordsLeft then
    return { packing with
      tempWord := ((packing.tempWord ||| w) <<< (8 * size)) % 2 ^ 128
      subWordsLeft := packing.subWordsLeft - 1 }
  else do
    eosAssert (packing.subWordsLeft = 1) .fixedKeyTypeException
      "unexpected error in fixed_key constructor"
    return { data := packing.data ++ [packing.tempWord ||| w], subWordsLeft := numSubWords size }

/-- What is written behind the loop, when the last word was not filled. -/
def Packing.last (packing : Packing) (size : Nat) : List Nat :=
  if packing.subWordsLeft ≠ numSubWords size then
    [if 1 < packing.subWordsLeft then
      (packing.tempWord <<< (8 * (packing.subWordsLeft - 1))) % 2 ^ 128 else packing.tempWord]
  else []

def numWords (keySize : Nat) : Nat := (keySize + 15) / 16

/-- `make_from_word_sequence`: the words are written over a key of zeros. -/
def makeFromWordSequence (keySize size : Nat) (words : List Nat) : Checked (List Nat) := do
  let packing ← words.foldlM (pack size) { subWordsLeft := numSubWords size }
  let written := packing.data ++ packing.last size
  return written ++ List.replicate (numWords keySize - written.length) 0

/-- The loop over the bytes of a word, which fills them from the last one on. -/
def wordBytes : (subWordsLeft tempWord : Nat) → (arr : List Nat) → List Nat
  | 0, _, arr => arr
  | left + 1, tempWord, arr => wordBytes left (tempWord >>> 8) ((tempWord &&& 0xff) :: arr)

/-- `extract_as_byte_array`. The last word leaves out the bytes that it has too many. -/
def extractAsByteArray (keySize : Nat) : List Nat → List Nat
  | [] => []
  | [word] => wordBytes (16 - (numWords keySize * 16 - keySize)) word []
  | word :: next :: rest => wordBytes 16 word [] ++ extractAsByteArray keySize (next :: rest)

/-- The words are of this size and fit in a key of so many words. -/
def Fits (count size : Nat) (words : List Nat) : Prop :=
  (∀ word ∈ words, word < 256 ^ size) ∧ size * words.length ≤ 16 * count

def partialWord (size : Nat) (words : List Nat) : List Nat :=
  words.drop (words.length - words.length % numSubWords size)

/-- A shift by bytes brings the last words to the left end. -/
def LeftAligned (size : Nat) (words : List Nat) : Prop :=
  size = 1 ∨ (partialWord size words).length + 1 = numSubWords size ∨
    ∀ word ∈ partialWord size words, word = 0

/-- Words with zeros up to the size of a key. -/
def padded (count size : Nat) (words : List Nat) : List Nat :=
  words ++ List.replicate (numSubWords size * count - words.length) 0

instance (count size : Nat) (words : List Nat) : Decidable (Fits count size words) :=
  inferInstanceAs (Decidable (_ ∧ _))

instance (size : Nat) (words : List Nat) : Decidable (LeftAligned size words) :=
  inferInstanceAs (Decidable (_ ∨ _ ∨ _))

/-! ### Packing -/

/-- The loop has packed the words `full` and holds the words `part` in `temp_word`. -/
structure Packed (size : Nat) (full part : List Nat) (packing : Packing) : Prop where
  data : number (256 ^ 16) packing.data = number (256 ^ size) full
  small : ∀ word ∈ packing.data, word < 256 ^ 16
  length : full.length = numSubWords size * packing.data.length
  temp : packing.tempWord = number (256 ^ size) part * 256 ^ size
  left : packing.subWordsLeft + part.length = numSubWords size
  room : part.length < numSubWords size

variable {size count : Nat} {full part words : List Nat} {packing : Packing}

theorem shiftLeft_bytes (value bytes : Nat) : value <<< (8 * bytes) = value * 256 ^ bytes := by
  rw [Nat.shiftLeft_eq, pow_mul]
  rfl

theorem or_eq_number {w : Nat} (fits : w < 256 ^ size) :
    number (256 ^ size) part * 256 ^ size ||| w = number (256 ^ size) (part ++ [w]) := by
  have below : w < 2 ^ (8 * size) := by rwa [pow_mul]
  rw [← shiftLeft_bytes, ← Nat.shiftLeft_add_eq_or_of_lt below, shiftLeft_bytes, number_append]
  simp [number]

theorem shift_eq_iff (value left : Nat) :
    value * 256 ^ size * 256 ^ left = value * (256 ^ size) ^ (left + 1) ↔
      size = 1 ∨ left = 0 ∨ value = 0 := by
  have positive : 0 < 256 ^ size := by positivity
  rw [pow_succ', ← Nat.mul_assoc, ← pow_mul]
  constructor
  · intro same
    rcases Nat.eq_zero_or_pos value with zero | some
    · exact .inr (.inr zero)
    have exponents := Nat.pow_right_injective (by decide : 2 ≤ 256)
      (Nat.eq_of_mul_eq_mul_left (Nat.mul_pos some positive) same)
    rcases Nat.eq_zero_or_pos left with none | more
    · exact .inr (.inl none)
    · exact .inl (Nat.eq_of_mul_eq_mul_right more (by omega))
  · rintro (rfl | rfl | rfl)
    · rw [Nat.one_mul]
    · rw [Nat.mul_zero]
    · simp

section

variable (divides : size ∣ 16)

include divides

theorem size_mul_numSubWords : size * numSubWords size = 16 := Nat.mul_div_cancel' divides

theorem pow_numSubWords : (256 ^ size) ^ numSubWords size = 256 ^ 16 := by
  rw [← pow_mul, size_mul_numSubWords divides]

theorem number_part_lt {more : Nat} (fits : ∀ word ∈ part, word < 256 ^ size)
    (room : part.length + more ≤ numSubWords size) :
    number (256 ^ size) part * (256 ^ size) ^ more < 2 ^ 128 := by
  have positive : 0 < 256 ^ size := by positivity
  calc
    _ < (256 ^ size) ^ part.length * (256 ^ size) ^ more :=
      Nat.mul_lt_mul_of_pos_right (number_lt fits) (pow_pos positive more)
    _ = (256 ^ size) ^ (part.length + more) := (pow_add _ _ _).symm
    _ ≤ (256 ^ size) ^ numSubWords size := Nat.pow_le_pow_right positive room
    _ = 2 ^ 128 := pow_numSubWords divides

section

variable (packed : Packed size full part packing)

include packed

theorem pack_packed {w : Nat} (small : ∀ word ∈ part ++ [w], word < 256 ^ size) :
    ∃ next full' part', pack size packing w = .ok next ∧ Packed size full' part' next ∧
      full' ++ part' = full ++ (part ++ [w]) := by
  have joined : packing.tempWord ||| w = number (256 ^ size) (part ++ [w]) := by
    rw [packed.temp]
    exact or_eq_number (small w (by simp))
  have longer : (part ++ [w]).length = part.length + 1 := by simp
  have counted := packed.left
  have room := packed.room
  unfold pack
  rw [joined]
  generalize part ++ [w] = chunk at small longer ⊢
  by_cases more : 1 < packing.subWordsLeft
  · have below := @number_part_lt _ _ divides 1 small (by omega)
    rw [pow_one] at below
    rw [if_pos more]
    exact ⟨_, full, chunk, rfl, ⟨packed.data, packed.small, packed.length,
      by rw [shiftLeft_bytes, Nat.mod_eq_of_lt below], by dsimp only; omega, by omega⟩, rfl⟩
  · have one : packing.subWordsLeft = 1 := by omega
    have filled : chunk.length = numSubWords size := by omega
    have below := @number_part_lt _ _ divides 0 small filled.le
    rw [pow_zero, Nat.mul_one] at below
    rw [if_neg more, eosAssert_of one]
    refine ⟨_, full ++ chunk, [], rfl, ?_, append_nil _⟩
    exact
      { data := by
          rw [number_append, number_append, packed.data, filled, pow_numSubWords divides]
          simp [number]
        small := by
          rw [forall_mem_append, forall_mem_singleton]
          exact ⟨packed.small, below⟩
        length := by
          rw [length_append, length_append, filled, packed.length]
          exact (Nat.mul_succ _ _).symm
        temp := (Nat.zero_mul _).symm
        left := rfl
        room := by
          rw [length_nil]
          omega }

theorem foldlM_pack (small : ∀ word ∈ full ++ part ++ words, word < 256 ^ size) :
    ∃ packing' full' part', words.foldlM (pack size) packing = .ok packing' ∧
      Packed size full' part' packing' ∧ full' ++ part' = full ++ part ++ words := by
  induction words generalizing full part packing with
  | nil => exact ⟨packing, full, part, rfl, packed, (append_nil _).symm⟩
  | cons w words ih =>
    have chunk : ∀ word ∈ part ++ [w], word < 256 ^ size := fun word member =>
      small word (by simp at member ⊢; tauto)
    obtain ⟨next, full', part', ran, packed', same⟩ := pack_packed divides packed chunk
    have moved : full' ++ part' ++ words = full ++ part ++ w :: words := by
      rw [same]
      simp
    obtain ⟨packing', full'', part'', rest, result⟩ := ih packed' (by rwa [moved])
    rw [moved] at result
    exact ⟨packing', full'', part'', by rw [foldlM_cons, ran]; exact rest, result⟩

theorem last_eq (nonempty : part ≠ []) (fits : ∀ word ∈ part, word < 256 ^ size) :
    ∃ left, packing.subWordsLeft = left + 1 ∧
      number (256 ^ size) part * 256 ^ size * 256 ^ left < 256 ^ 16 ∧
      packing.last size = [number (256 ^ size) part * 256 ^ size * 256 ^ left] := by
  have counted := packed.left
  have room := packed.room
  have some := length_pos_iff.mpr nonempty
  obtain ⟨left, isLeft⟩ : ∃ left, packing.subWordsLeft = left + 1 :=
    Nat.exists_eq_succ_of_ne_zero (by omega)
  have sized : size ≠ 0 := by
    rintro rfl
    simp [numSubWords] at room
  have below := @number_part_lt _ _ divides (left + 1) fits (by omega)
  rw [pow_succ', ← Nat.mul_assoc] at below
  have less : 256 ^ left ≤ (256 ^ size) ^ left :=
    Nat.pow_le_pow_left (Nat.le_self_pow sized 256) left
  have small := (Nat.mul_le_mul_left _ less).trans_lt below
  refine ⟨left, isLeft, small, ?_⟩
  unfold Packing.last
  rw [if_pos (by omega), packed.temp, isLeft, Nat.add_sub_cancel]
  split_ifs with more
  · rw [shiftLeft_bytes, Nat.mod_eq_of_lt small]
  · rw [show left = 0 by omega, pow_zero, Nat.mul_one]

/-- The key stands for the number of its words exactly when the last words are at the left end. -/
theorem number_key (fits : ∀ word ∈ part, word < 256 ^ size)
    (short : size * (full ++ part).length ≤ 16 * count) :
    (packing.data ++ packing.last size).length ≤ count ∧
      (number (256 ^ 16) (packing.data ++ packing.last size ++
          List.replicate (count - (packing.data ++ packing.last size).length) 0) =
        number (256 ^ size) (full ++ part) * 256 ^ (16 * count - size * (full ++ part).length) ↔
      size = 1 ∨ part.length + 1 = numSubWords size ∨ ∀ word ∈ part, word = 0) := by
  have whole := size_mul_numSubWords divides
  have bytes : size * (full ++ part).length = 16 * packing.data.length + size * part.length := by
    rw [length_append, Nat.mul_add, packed.length, ← Nat.mul_assoc, whole]
  rw [bytes] at short ⊢
  rw [number_append_zeros]
  by_cases empty : part = []
  · subst empty
    have none : packing.last size = [] := if_neg (not_not.mpr packed.left)
    rw [length_nil, Nat.mul_zero, Nat.add_zero] at short ⊢
    rw [none, append_nil, append_nil, packed.data, ← Nat.mul_sub, pow_mul]
    exact ⟨by omega, by simp⟩
  · obtain ⟨left, isLeft, -, isLast⟩ := last_eq divides packed empty fits
    have counted := packed.left
    rw [isLeft] at counted
    have rest : size * (left + 1) + size * part.length = 16 := by rw [← Nat.mul_add, counted, whole]
    have some : 0 < size * part.length := by
      have sized : size ≠ 0 := by
        rintro rfl
        omega
      have long := length_pos_iff.mpr empty
      positivity
    obtain ⟨behind, rfl⟩ : ∃ behind, count = packing.data.length + 1 + behind :=
      Nat.exists_eq_add_of_le (by omega)
    have exponent : 16 * (packing.data.length + 1 + behind) -
        (16 * packing.data.length + size * part.length) = size * (left + 1) + 16 * behind := by
      omega
    have together : (256 ^ size) ^ part.length * (256 ^ size) ^ (left + 1) = 256 ^ 16 := by
      rw [← pow_add, Nat.add_comm, counted, pow_numSubWords divides]
    have value : number (256 ^ size) (full ++ part) * 256 ^ (size * (left + 1)) =
        number (256 ^ size) full * 256 ^ 16 + number (256 ^ size) part * (256 ^ size) ^ (left + 1) := by
      rw [number_append, pow_mul, Nat.add_mul, Nat.mul_assoc, together]
    have atEnd : left = 0 ↔ part.length + 1 = numSubWords size := by omega
    refine ⟨by simp [isLast], ?_⟩
    rw [isLast, length_append, length_singleton, Nat.add_sub_cancel_left, exponent, pow_add,
      ← Nat.mul_assoc, value, pow_mul, Nat.mul_left_inj (by positivity), number_append, packed.data,
      length_singleton, pow_one, Nat.add_left_cancel_iff, ← atEnd,
      ← number_eq_zero (by positivity : 0 < 256 ^ size), ← shift_eq_iff]
    simp [number]

end

/-! ### Keys -/

theorem exists_key (fits : Fits count size words) :
    ∃ key, makeFromWordSequence (16 * count) size words = .ok key ∧ key.length = count ∧
      (∀ word ∈ key, word < 256 ^ 16) ∧
      (number (256 ^ 16) key =
          number (256 ^ size) words * 256 ^ (16 * count - size * words.length) ↔
        LeftAligned size words) := by
  have whole := size_mul_numSubWords divides
  have room : 0 < numSubWords size := Nat.pos_of_ne_zero fun none => by simp [none] at whole
  have start : Packed size [] [] { subWordsLeft := numSubWords size } :=
    ⟨rfl, by simp, rfl, (Nat.zero_mul _).symm, rfl, room⟩
  obtain ⟨packing, full, part, ran, packed, rfl⟩ :=
    foldlM_pack divides start (by simpa using fits.1)
  have partSmall := (forall_mem_append.mp fits.1).2
  obtain ⟨written, equal⟩ := number_key divides packed partSmall fits.2
  have numbered : numWords (16 * count) = count := by
    unfold numWords
    omega
  have remaining : partialWord size (full ++ part) = part := by
    unfold partialWord
    rw [length_append, packed.length, Nat.mul_add_mod, Nat.mod_eq_of_lt packed.room,
      Nat.add_sub_cancel, ← packed.length, drop_left]
  have lastSmall : ∀ word ∈ packing.last size, word < 256 ^ 16 := by
    by_cases empty : part = []
    · have none : packing.last size = [] := if_neg (not_not.mpr (by simpa [empty] using packed.left))
      simp [none]
    · obtain ⟨left, -, small, isLast⟩ := last_eq divides packed empty partSmall
      simpa only [isLast, forall_mem_singleton] using small
  refine ⟨_, sequence_eq_ok.mpr ⟨packing, ran, rfl⟩, ?_, ?_, ?_⟩
  · rw [numbered, length_append, length_replicate, Nat.add_sub_cancel' written]
  · rw [forall_mem_append, forall_mem_append]
    exact ⟨⟨packed.small, lastSmall⟩, by simp⟩
  · rw [numbered, LeftAligned, remaining]
    exact equal

end

theorem wordBytes_eq (left word : Nat) (arr : List Nat) :
    wordBytes left word arr = toDigits (List.replicate left 256) word arr := by
  induction left generalizing word arr with
  | zero => rfl
  | succ left ih =>
    rw [wordBytes, ih, Nat.shiftRight_eq_div_pow, Nat.and_two_pow_sub_one_eq_mod _ 8]
    rfl

theorem extractAsByteArray_eq (count : Nat) (key : List Nat) :
    extractAsByteArray (16 * count) key = key.flatMap (digitsOf 256 16) := by
  have unpadded : 16 - (numWords (16 * count) * 16 - 16 * count) = 16 := by
    unfold numWords
    omega
  induction key with
  | nil => rfl
  | cons word key ih =>
    rw [flatMap_cons, ← ih]
    cases key with
    | nil =>
      show wordBytes (16 - _) word [] = digitsOf 256 16 word ++ []
      rw [unpadded, wordBytes_eq, append_nil]
      rfl
    | cons next rest =>
      rw [extractAsByteArray, wordBytes_eq]
      rfl

theorem length_padded (divides : size ∣ 16) (fits : Fits count size words) :
    (padded count size words).length = numSubWords size * count := by
  have whole := size_mul_numSubWords divides
  have short : size * words.length ≤ size * (numSubWords size * count) := by
    rw [← Nat.mul_assoc, whole]
    exact fits.2
  have sized : 0 < size := Nat.pos_of_dvd_of_pos divides (by decide)
  rw [padded, length_append, length_replicate,
    Nat.add_sub_cancel' (Nat.le_of_mul_le_mul_left short sized)]

theorem padded_small (fits : Fits count size words) :
    ∀ word ∈ padded count size words, word < 256 ^ size := by
  unfold padded
  rw [forall_mem_append]
  exact ⟨fits.1, by simp⟩

theorem number_padded (divides : size ∣ 16) (words : List Nat) :
    number (256 ^ size) (padded count size words) =
      number (256 ^ size) words * 256 ^ (16 * count - size * words.length) := by
  rw [padded, number_append_zeros, ← pow_mul, Nat.mul_sub, ← Nat.mul_assoc,
    size_mul_numSubWords divides]

/-- **Keys of words.** The bytes of a key are those of its words, followed by zeros, exactly when the
last words are aligned; and keys whose words are aligned are ordered like their words. -/
theorem bytes_of_key_iff (count : Nat) {size : Nat} (divides : size ∣ 16) :
    (∀ words, Fits count size words →
      ∃ key, makeFromWordSequence (16 * count) size words = .ok key ∧
        (extractAsByteArray (16 * count) key = words.flatMap (digitsOf 256 size) ++
            List.replicate (16 * count - size * words.length) 0 ↔ LeftAligned size words)) ∧
      ∀ words words' key key', Fits count size words → Fits count size words' →
        LeftAligned size words → LeftAligned size words' →
        makeFromWordSequence (16 * count) size words = .ok key →
        makeFromWordSequence (16 * count) size words' = .ok key' →
        (key < key' ↔ padded count size words < padded count size words') := by
  constructor
  · intro words fits
    obtain ⟨key, made, length, small, equal⟩ := exists_key divides fits
    refine ⟨key, made, ?_⟩
    have long : (extractAsByteArray (16 * count) key).length = (words.flatMap (digitsOf 256 size) ++
        List.replicate (16 * count - size * words.length) 0).length := by
      rw [extractAsByteArray_eq, length_flatMap_digitsOf (by decide), length_append,
        length_flatMap_digitsOf (by decide), length_replicate, length,
        Nat.add_sub_cancel' fits.2]
    rw [← equal, ← number_inj long, extractAsByteArray_eq, number_flatMap (by decide) small,
      number_append_zeros, number_flatMap (by decide) fits.1]
    · rw [extractAsByteArray_eq]
      exact flatMap_digitsOf_lt (by decide) key
    · rw [forall_mem_append]
      exact ⟨flatMap_digitsOf_lt (by decide) words, by simp⟩
  · intro words words' key key' fits fits' aligned aligned' made made'
    obtain ⟨_, isMade, length, small, equal⟩ := exists_key divides fits
    cases made.symm.trans isMade
    obtain ⟨_, isMade', length', small', equal'⟩ := exists_key divides fits'
    cases made'.symm.trans isMade'
    rw [← number_lt_iff (length.trans length'.symm) small small', equal.mpr aligned,
      equal'.mpr aligned', ← number_padded divides, ← number_padded divides]
    exact number_lt_iff ((length_padded divides fits).trans (length_padded divides fits').symm)
      (padded_small fits) (padded_small fits')

/-- Three words of 8 bytes in a key of 32 bytes. -/
theorem bytes_of_key_iff_three :
    ∃ key, makeFromWordSequence 32 8 [1, 2, 3] = .ok key ∧ extractAsByteArray 32 key =
      [1, 2, 3].flatMap (digitsOf 256 8) ++ List.replicate 8 0 := by
  obtain ⟨key, made, equal⟩ := (bytes_of_key_iff 2 (by decide : 8 ∣ 16)).1 [1, 2, 3] (by decide)
  exact ⟨key, made, equal.mpr (by decide)⟩

/-- One word of 4 bytes is shifted by six bytes less than it should be. -/
theorem key_of_one_word :
    Fits 1 4 [1] ∧ ∃ key, makeFromWordSequence 16 4 [1] = .ok key ∧
      extractAsByteArray 16 key ≠ [1].flatMap (digitsOf 256 4) ++ List.replicate 12 0 :=
  ⟨by decide, _, rfl, by decide⟩

end CodexRelay.Chain.FixedKey
