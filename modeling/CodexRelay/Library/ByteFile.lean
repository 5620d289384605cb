import Mathlib

/-!
Contract: files and streams of bytes.

Owns:
- numbers in a fixed count of bytes, the lowest first, and how they are read from a file;
- values with a packing that can be read back from the front of a stream;
- files of records in which each record is followed by its position, and the file of these
  positions;
- `ByteStream`, writing at the position over what stands there, and reading numbers.

Both kinds of files grow at the end. What was written before is a part of the file at a
known position.
-/

namespace CodexRelay.Library

open List

variable {width n : Nat}

/-! ### Numbers -/

def writeWord : (width : Nat) → Nat → List UInt8
  | 0, _ => []
  | width + 1, n => UInt8.ofNat (n % 256) :: writeWord width (n / 256)

def wordOf : List UInt8 → Nat
  | [] => 0
  | byte :: rest => byte.toNat + 256 * wordOf rest

@[simp] theorem length_writeWord (width n : Nat) : (writeWord width n).length = width := by
  induction width generalizing n with
  | zero => rfl
  | succ width ih => simp [writeWord, ih]

theorem wordOf_writeWord (fits : n < 256 ^ width) : wordOf (writeWord width n) = n := by
  induction width generalizing n with
  | zero =>
    rw [pow_zero] at fits
    exact (Nat.lt_one_iff.mp fits).symm
  | succ width ih =>
    have quotient : n / 256 < 256 ^ width := by
      apply Nat.div_lt_of_lt_mul
      rwa [← pow_succ']
    have byte : (UInt8.ofNat (n % 256)).toNat = n % 256 := by
      rw [UInt8.toNat_ofNat']
      exact Nat.mod_eq_of_lt (Nat.mod_lt n (by decide))
    rw [writeWord, wordOf, ih quotient, byte]
    exact Nat.mod_add_div n 256

def takeWord (width : Nat) (stream : List UInt8) : Option (Nat × List UInt8) :=
  if width ≤ stream.length then some (wordOf (stream.take width), stream.drop width) else none

theorem takeWord_writeWord (fits : n < 256 ^ width) (rest : List UInt8) :
    takeWord width (writeWord width n ++ rest) = some (n, rest) := by
  have long : width ≤ (writeWord width n ++ rest).length := by simp
  rw [takeWord, if_pos long, take_left' (length_writeWord width n),
    drop_left' (length_writeWord width n), wordOf_writeWord fits]

def readWord (width : Nat) (file : List UInt8) (pos : Nat) : Option Nat :=
  (takeWord width (file.drop pos)).map Prod.fst

theorem readWord_append (fits : n < 256 ^ width) (before after : List UInt8) :
    readWord width (before ++ (writeWord width n ++ after)) before.length = some n := by
  rw [readWord, drop_left, takeWord_writeWord fits]
  rfl

def lastWord (width : Nat) (file : List UInt8) : Option Nat :=
  if width ≤ file.length then readWord width file (file.length - width) else none

theorem lastWord_append (fits : n < 256 ^ width) (before : List UInt8) :
    lastWord width (before ++ writeWord width n) = some n := by
  have long : width ≤ (before ++ writeWord width n).length := by simp
  have start : (before ++ writeWord width n).length - width = before.length := by simp
  rw [lastWord, if_pos long, start]
  simpa using readWord_append fits before []

/-- A packing of values. A packed value is read back from the front of a stream. -/
structure Codec (α : Type*) where
  pack : α → List UInt8
  unpack : List UInt8 → Option (α × List UInt8)
  unpack_pack : ∀ value rest, unpack (pack value ++ rest) = some (value, rest)

/-! ### Tables of numbers -/

def wordTable (width : Nat) (numbers : List Nat) : List UInt8 := numbers.flatMap (writeWord width)

theorem wordTable_append (width : Nat) (left right : List Nat) :
    wordTable width (left ++ right) = wordTable width left ++ wordTable width right :=
  flatMap_append

@[simp] theorem length_wordTable (width : Nat) (numbers : List Nat) :
    (wordTable width numbers).length = width * numbers.length := by
  induction numbers with
  | nil => rfl
  | cons n rest ih =>
    change (writeWord width n ++ wordTable width rest).length = _
    rw [length_append, length_writeWord, ih, length_cons]
    ring

theorem readWord_wordTable {before after : List Nat} (fits : n < 256 ^ width) :
    readWord width (wordTable width (before ++ n :: after)) (width * before.length) = some n := by
  rw [wordTable_append, ← length_wordTable]
  exact readWord_append fits (wordTable width before) (wordTable width after)

theorem lastWord_wordTable {before : List Nat} (fits : n < 256 ^ width) :
    lastWord width (wordTable width (before ++ [n])) = some n := by
  rw [wordTable_append]
  simpa [wordTable] using lastWord_append fits (wordTable width before)

theorem take_wordTable (width : Nat) (numbers : List Nat) (count : Nat) :
    (wordTable width numbers).take (width * count) = wordTable width (numbers.take count) := by
  rcases le_total count numbers.length with inside | outside
  · conv_lhs => rw [← take_append_drop count numbers, wordTable_append]
    apply take_left'
    rw [length_wordTable, length_take_of_le inside]
  · rw [take_of_length_le outside, take_of_length_le]
    rw [length_wordTable]
    exact Nat.mul_le_mul_left width outside

/-! ### Records with their positions -/

/-- Records from a position on, each followed by its position in eight bytes. -/
def records : (base : Nat) → List (List UInt8) → List UInt8
  | _, [] => []
  | base, record :: rest => record ++ (writeWord 8 base ++ records (base + record.length + 8) rest)

def positions : (base : Nat) → List (List UInt8) → List Nat
  | _, [] => []
  | base, record :: rest => base :: positions (base + record.length + 8) rest

@[simp] theorem length_positions (base : Nat) (rows : List (List UInt8)) :
    (positions base rows).length = rows.length := by
  induction rows generalizing base with
  | nil => rfl
  | cons record rest ih => simp [positions, ih]

theorem add_length_records_cons (base : Nat) (record : List UInt8) (rest : List (List UInt8)) :
    base + (records base (record :: rest)).length =
      base + record.length + 8 + (records (base + record.length + 8) rest).length := by
  simp only [records, length_append, length_writeWord]
  omega

theorem records_append (base : Nat) (left right : List (List UInt8)) :
    records base (left ++ right) =
      records base left ++ records (base + (records base left).length) right := by
  induction left generalizing base with
  | nil => rfl
  | cons record rest ih =>
    rw [add_length_records_cons, cons_append, records, records, ih]
    simp only [append_assoc]

theorem positions_append (base : Nat) (left right : List (List UInt8)) :
    positions base (left ++ right) =
      positions base left ++ positions (base + (records base left).length) right := by
  induction left generalizing base with
  | nil => rfl
  | cons record rest ih =>
    rw [add_length_records_cons, cons_append, positions, positions, ih, cons_append]

theorem records_split (base : Nat) (before : List (List UInt8)) (record : List UInt8)
    (after : List (List UInt8)) :
    let pos := base + (records base before).length
    records base (before ++ record :: after) = records base before ++
      (record ++ (writeWord 8 pos ++ records (pos + record.length + 8) after)) :=
  records_append base before (record :: after)

theorem positions_split (base : Nat) (before : List (List UInt8)) (record : List UInt8)
    (after : List (List UInt8)) :
    let pos := base + (records base before).length
    positions base (before ++ record :: after) =
      positions base before ++ pos :: positions (pos + record.length + 8) after :=
  positions_append base before (record :: after)

theorem length_records_ge (base : Nat) (rows : List (List UInt8)) :
    8 * rows.length ≤ (records base rows).length := by
  induction rows generalizing base with
  | nil => exact le_rfl
  | cons record rest ih =>
    have following := ih (base + record.length + 8)
    simp only [records, length_append, length_writeWord, length_cons]
    omega

theorem le_of_mem_positions {base pos : Nat} {rows : List (List UInt8)}
    (member : pos ∈ positions base rows) : base ≤ pos := by
  induction rows generalizing base with
  | nil => exact absurd member not_mem_nil
  | cons record rest ih =>
    rcases mem_cons.mp member with rfl | later
    · exact le_rfl
    · have above := ih later
      omega

theorem positions_increasing (base : Nat) (rows : List (List UInt8)) :
    (positions base rows).Pairwise (· < ·) := by
  induction rows generalizing base with
  | nil => exact .nil
  | cons record rest ih =>
    refine pairwise_cons.mpr ⟨fun pos later => ?_, ih _⟩
    have above := le_of_mem_positions later
    omega

theorem le_getLast_of_mem {numbers : List Nat} (increasing : numbers.Pairwise (· < ·)) {last : Nat}
    (isLast : numbers.getLast? = some last) (member : n ∈ numbers) : n ≤ last := by
  obtain ⟨before, rfl⟩ := getLast?_eq_some_iff.mp isLast
  rcases mem_append.mp member with inside | atEnd
  · exact ((pairwise_append.mp increasing).2.2 n inside last mem_cons_self).le
  · exact (mem_singleton.mp atEnd).le

/-- A part of an increasing list that has its last element is the whole list. -/
theorem take_eq_self_of_getLast {numbers : List Nat} (increasing : numbers.Pairwise (· < ·))
    {count last : Nat} (isLast : numbers.getLast? = some last)
    (partLast : (numbers.take count).getLast? = some last) : numbers.take count = numbers := by
  rcases le_or_gt numbers.length count with whole | cut
  · exact take_of_length_le whole
  · have rest : numbers.drop count ≠ [] := by
      rw [Ne, drop_eq_nil_iff]
      exact not_le.mpr cut
    rw [← take_append_drop count numbers] at increasing isLast
    rw [getLast?_append_of_ne_nil _ rest] at isLast
    have less := (pairwise_append.mp increasing).2.2 last (mem_of_getLast? partLast)
      last (mem_of_getLast? isLast)
    exact absurd less (lt_irrefl last)

/-! ### Streams -/

structure ByteStream where
  bytes : List UInt8
  position : Nat

namespace ByteStream

def write (stream : ByteStream) (data : List UInt8) : ByteStream where
  bytes := stream.bytes.take stream.position ++ (data ++
    stream.bytes.drop (stream.position + data.length))
  position := stream.position + data.length

def seek (stream : ByteStream) (position : Nat) : ByteStream := { stream with position := position }

def rest (stream : ByteStream) : List UInt8 := stream.bytes.drop stream.position

def readNumber (stream : ByteStream) (width : Nat) : Option (Nat × ByteStream) :=
  (takeWord width stream.rest).map fun (n, _) => (n, stream.seek (stream.position + width))

def atEnd (bytes : List UInt8) : ByteStream := ⟨bytes, bytes.length⟩

@[simp] theorem write_atEnd (bytes data : List UInt8) :
    (atEnd bytes).write data = atEnd (bytes ++ data) := by
  simp [atEnd, write]

theorem write_over {before old data : List UInt8} (sameLength : data.length = old.length)
    (after : List UInt8) :
    write ⟨before ++ (old ++ after), before.length⟩ data =
      ⟨before ++ (data ++ after), before.length + data.length⟩ := by
  have behind : (before ++ (old ++ after)).drop (before.length + data.length) = after := by
    rw [← append_assoc]
    apply drop_left'
    rw [length_append, sameLength]
  rw [write, behind, take_left]

theorem readNumber_writeWord {width n : Nat} (fits : n < 256 ^ width) (before after : List UInt8) :
    readNumber ⟨before ++ (writeWord width n ++ after), before.length⟩ width =
      some (n, ⟨before ++ (writeWord width n ++ after), before.length + width⟩) := by
  rw [readNumber, rest, drop_left, takeWord_writeWord fits]
  rfl

end ByteStream

end CodexRelay.Library
