import CodexRelay.Library.ByteFile
import CodexRelay.Library.Run
import CodexRelay.Chain.Types

/-!
Contract: binary snapshots, as `snapshot.cpp` writes and reads them.

Owns:
- `ostream_snapshot_writer` with the sizes and counts that it fills in at the end of a section;
- `istream_snapshot_reader` with its search for a section.

Does not own: the rows, each of which is packed and unpacked by `fc` with the type of the row, and
the snapshots in variants.

A loop whose stream has failed, or that comes back to a position, does not end; it is a fault.
-/

namespace CodexRelay.Chain

open Library

/-- A section: its name and its rows, each of a type of its own. -/
structure SnapshotSection {Kind : Type} (Row : Kind → Type) where
  name : List UInt8
  rows : List (Σ kind, Row kind)

def currentSnapshotVersion : Nat := 1

def snapshotMagicNumber : Nat := 0x30510550

/-- `std::numeric_limits<uint64_t>::max()`, which marks the end and stands for what is not known. -/
def snapshotEndMarker : Nat := 2 ^ 64 - 1

variable {Kind : Type} {Row : Kind → Type}

/-! ### Writing -/

/-- `ostream_snapshot_writer`. The position -1 of no section is `none`. -/
structure OstreamSnapshotWriter where
  snapshot : ByteStream
  headerPos : Nat
  sectionPos : Option Nat := none
  rowCount : Nat := 0

namespace OstreamSnapshotWriter

def create (snapshot : ByteStream) : OstreamSnapshotWriter where
  snapshot := (snapshot.write (writeWord 4 snapshotMagicNumber)).write
    (writeWord 4 currentSnapshotVersion)
  headerPos := snapshot.position

variable (writer : OstreamSnapshotWriter)

def writeStartSection (name : List UInt8) : Checked OstreamSnapshotWriter := do
  eosAssert (writer.sectionPos = none) .snapshotException
    "Attempting to write a new section without closing the previous section"
  let snapshot := writer.snapshot.write (writeWord 8 snapshotEndMarker)
  let snapshot := snapshot.write (writeWord 8 snapshotEndMarker)
  return { writer with
    snapshot := (snapshot.write name).write [0]
    sectionPos := some writer.snapshot.position
    rowCount := 0 }

def writeRow (row : List UInt8) : OstreamSnapshotWriter :=
  { writer with
    snapshot := writer.snapshot.write row
    rowCount := (writer.rowCount + 1) % 2 ^ 64 }

/-- `write_end_section`. Without a section the stream is moved to -1 and fails. -/
def writeEndSection : Checked OstreamSnapshotWriter :=
  match writer.sectionPos with
  | none => .error ⟨.fault, "write_end_section without a section"⟩
  | some sectionPos =>
    let restore := writer.snapshot.position
    let sectionSize := (restore + 2 ^ 64 - sectionPos - 8) % 2 ^ 64
    let snapshot := (writer.snapshot.seek sectionPos).write (writeWord 8 sectionSize)
    let snapshot := snapshot.write (writeWord 8 writer.rowCount)
    .ok { writer with snapshot := snapshot.seek restore, sectionPos := none, rowCount := 0 }

def finalize : OstreamSnapshotWriter :=
  { writer with snapshot := writer.snapshot.write (writeWord 8 snapshotEndMarker) }

def packRow (codec : ∀ kind, Codec (Row kind)) (row : Σ kind, Row kind) : List UInt8 :=
  (codec row.1).pack row.2

/-- `write_section` with rows that are added in order. -/
def writeSection (codec : ∀ kind, Codec (Row kind)) (writer : OstreamSnapshotWriter)
    (added : SnapshotSection Row) : Checked OstreamSnapshotWriter := do
  let writer ← writer.writeStartSection added.name
  ((added.rows.map (packRow codec)).foldl writeRow writer).writeEndSection

/-- A snapshot of some sections at the position of a stream. -/
def writeSnapshot (codec : ∀ kind, Codec (Row kind)) (sections : List (SnapshotSection Row))
    (stream : ByteStream) : Checked OstreamSnapshotWriter := do
  let writer ← sections.foldlM (writeSection codec) (create stream)
  return writer.finalize

end OstreamSnapshotWriter

/-! ### Reading -/

structure IstreamSnapshotReader where
  snapshot : ByteStream
  headerPos : Nat
  numRows : Nat := 0
  curRow : Nat := 0

namespace IstreamSnapshotReader

def create (snapshot : ByteStream) : IstreamSnapshotReader where
  snapshot := snapshot
  headerPos := snapshot.position

/-- A stream that fails where an exception is thrown or a loop does not end. -/
def orThrow {α : Type} (thrown : ChainException) (result : Option α) : Checked α :=
  match result with
  | some value => .ok value
  | none => .error thrown

@[simp] theorem orThrow_some {α : Type} (thrown : ChainException) (value : α) :
    orThrow thrown (some value) = .ok value := rfl

/-- `tellg() + std::streamoff( size )`: the offset is signed. -/
def seekBy (position size : Nat) : Option Nat :=
  if size < 2 ^ 63 then some (position + size)
  else if 2 ^ 64 ≤ position + size then some (position + size - 2 ^ 64)
  else none

/-- The failures of a stream in `validate`, which makes them exceptions. -/
def ioException : ChainException :=
  ⟨.snapshotException, "Binary snapshot validation threw IO exception (${what})"⟩

def noEnd : ChainException := ⟨.fault, "the loop over the sections does not end"⟩

/-- The loop over `validate_section`, for a number of sections at most. -/
def validateSections : Nat → ByteStream → Checked Unit
  | 0, _ => .error noEnd
  | rounds + 1, stream => do
      let (sectionSize, stream) ← orThrow ioException (stream.readNumber 8)
      if sectionSize = snapshotEndMarker then return ()
      else
        let position ← orThrow ioException (seekBy stream.position sectionSize)
        validateSections rounds (stream.seek position)

variable (reader : IstreamSnapshotReader)

/-- `validate`. Every section starts at a position of its own, or the loop does not end. -/
def validate : Checked Unit := do
  let (actualTotem, stream) ← orThrow ioException (reader.snapshot.readNumber 4)
  eosAssert (actualTotem = snapshotMagicNumber) .snapshotException
    "Binary snapshot has unexpected magic number!"
  let (actualVersion, stream) ← orThrow ioException (stream.readNumber 4)
  eosAssert (actualVersion = currentSnapshotVersion) .snapshotException
    "Binary snapshot is an unsuppored version.  Expected : ${expected}, Got: ${actual}"
  validateSections (reader.snapshot.bytes.length + 1) stream

def signedChar (c : UInt8) : Int := if c.toNat < 128 then c.toNat else c.toNat - 256

/-- Compare the bytes of a stream with a name and the zero behind it. There is no result at the end
of the stream, which then has failed for good. -/
def matchName : (name rest : List UInt8) → Option Bool
  | _, [] => none
  | [], byte :: _ => some (byte = 0)
  | c :: name, byte :: rest =>
    if (byte.toNat : Int) ≠ signedChar c then some false else matchName name rest

/-- The loop of `has_section` and `set_section` from a section on: the row count and the position
of the rows. -/
def searchSection (name : List UInt8) : Nat → ByteStream → Checked (Option (Nat × Nat))
  | 0, _ => .error noEnd
  | rounds + 1, stream => do
      let (sectionSize, stream) ← orThrow noEnd (stream.readNumber 8)
      if sectionSize = snapshotEndMarker then return none
      else
        let (rowCount, atName) ← orThrow noEnd (stream.readNumber 8)
        let matched ← orThrow noEnd (matchName name atName.rest)
        if matched then return some (rowCount, atName.position + name.length + 1)
        else
          let nextSectionPos ← orThrow noEnd (seekBy stream.position sectionSize)
          searchSection name rounds (stream.seek nextSectionPos)

def findSection (name : List UInt8) : Checked (Option (Nat × Nat)) :=
  searchSection name (reader.snapshot.bytes.length + 1) (reader.snapshot.seek (reader.headerPos + 8))

/-- `has_section`, which restores the position. -/
def hasSection (name : List UInt8) : Checked Bool := do
  let found ← reader.findSection name
  return found.isSome

def setSection (name : List UInt8) : Checked IstreamSnapshotReader := do
  match ← reader.findSection name with
  | some (rowCount, position) =>
    return { reader with
      snapshot := reader.snapshot.seek position
      curRow := 0
      numRows := rowCount }
  | none => .error ⟨.snapshotException, "Binary snapshot has no section named ${n}"⟩

/-- `read_row` of a row of some type, with whether there are more. -/
def readRow (codec : ∀ kind, Codec (Row kind)) (reader : IstreamSnapshotReader) (kind : Kind) :
    Checked ((Row kind × Bool) × IstreamSnapshotReader) := do
  let (row, rest) ← orThrow ⟨.fcException, "unpack"⟩ ((codec kind).unpack reader.snapshot.rest)
  let curRow := (reader.curRow + 1) % 2 ^ 64
  return ((row, decide (curRow < reader.numRows)), { reader with
    snapshot := reader.snapshot.seek (reader.snapshot.bytes.length - rest.length)
    curRow := curRow })

def clearSection : IstreamSnapshotReader :=
  { reader with numRows := 0, curRow := 0 }

def readRows (codec : ∀ kind, Codec (Row kind)) :
    List Kind → IstreamSnapshotReader →
      Checked (List ((Σ kind, Row kind) × Bool) × IstreamSnapshotReader)
  | [], reader => .ok ([], reader)
  | kind :: kinds, reader => do
      let ((row, more), reader) ← reader.readRow codec kind
      let (rows, reader) ← readRows codec kinds reader
      return ((⟨kind, row⟩, more) :: rows, reader)

/-- A call that changes the reader. `validate`, `has_section` and a `set_section` that throws do
not. -/
inductive Step (codec : ∀ kind, Codec (Row kind)) :
    IstreamSnapshotReader → IstreamSnapshotReader → Prop where
  | setSection {reader opened : IstreamSnapshotReader} (name : List UInt8)
      (ran : reader.setSection name = .ok opened) : Step codec reader opened
  | readRow {reader next : IstreamSnapshotReader} (kind : Kind) (result : Row kind × Bool)
      (ran : reader.readRow codec kind = .ok (result, next)) : Step codec reader next
  | clearSection (reader : IstreamSnapshotReader) : Step codec reader reader.clearSection

end IstreamSnapshotReader

open List

variable {codec : ∀ kind, Codec (Row kind)}

variable {after name : List UInt8}

variable {writer : OstreamSnapshotWriter} {written : List UInt8}

/-! ### The bytes of a snapshot -/

namespace SnapshotSection

def rowsBytes (codec : ∀ kind, Codec (Row kind)) (rows : List (Σ kind, Row kind)) : List UInt8 :=
  (rows.map (OstreamSnapshotWriter.packRow codec)).flatten

def body (codec : ∀ kind, Codec (Row kind)) (added : SnapshotSection Row) : List UInt8 :=
  added.name ++ (0 :: rowsBytes codec added.rows)

/-- A section. Its size counts what is behind the size. -/
def bytes (codec : ∀ kind, Codec (Row kind)) (added : SnapshotSection Row) : List UInt8 :=
  writeWord 8 ((8 + (added.body codec).length) % 2 ^ 64) ++
    (writeWord 8 (added.rows.length % 2 ^ 64) ++ added.body codec)

def allBytes (codec : ∀ kind, Codec (Row kind)) (sections : List (SnapshotSection Row)) :
    List UInt8 :=
  sections.flatMap (bytes codec) ++ writeWord 8 snapshotEndMarker

@[simp] theorem length_bytes (added : SnapshotSection Row) :
    (added.bytes codec).length = 16 + (added.body codec).length := by
  simp only [bytes, length_append, length_writeWord]
  omega

@[simp] theorem length_body (added : SnapshotSection Row) :
    (added.body codec).length = added.name.length + 1 + (rowsBytes codec added.rows).length := by
  simp only [body, length_append, length_cons]
  omega

@[simp] theorem allBytes_cons (added : SnapshotSection Row) (rest : List (SnapshotSection Row)) :
    allBytes codec (added :: rest) = added.bytes codec ++ allBytes codec rest := by
  simp [allBytes]

theorem length_lt_allBytes (sections : List (SnapshotSection Row)) :
    sections.length < (allBytes codec sections).length := by
  induction sections with
  | nil => simp [allBytes]
  | cons added rest ih =>
    rw [allBytes_cons, length_cons, length_append, length_bytes]
    omega

end SnapshotSection

def snapshotHeader : List UInt8 :=
  writeWord 4 snapshotMagicNumber ++ writeWord 4 currentSnapshotVersion

/-! ### Writing -/

namespace OstreamSnapshotWriter

open ByteStream SnapshotSection

theorem create_atEnd (before : List UInt8) :
    create (atEnd before) =
      { snapshot := atEnd (before ++ snapshotHeader), headerPos := before.length } := by
  unfold create
  rw [write_atEnd, write_atEnd, append_assoc]
  rfl

theorem foldl_writeRow (isAtEnd : writer.snapshot = atEnd written)
    (counted : writer.rowCount < 2 ^ 64) (rows : List (List UInt8)) :
    rows.foldl writeRow writer =
      { writer with
        snapshot := atEnd (written ++ rows.flatten)
        rowCount := (writer.rowCount + rows.length) % 2 ^ 64 } := by
  induction rows generalizing writer written with
  | nil =>
    rw [foldl_nil, flatten_nil, append_nil, ← isAtEnd, length_nil,
      Nat.add_zero, Nat.mod_eq_of_lt counted]
  | cons row rows ih =>
    have wrote : (writer.writeRow row).snapshot = atEnd (written ++ row) := by
      rw [writeRow, isAtEnd, write_atEnd]
    rw [foldl_cons, ih wrote (Nat.mod_lt _ (by decide)), flatten_cons, append_assoc, length_cons]
    simp only [writeRow, Nat.mod_add_mod]
    rw [show writer.rowCount + 1 + rows.length = writer.rowCount + (rows.length + 1) by omega]

/-- The placeholders of a section are replaced by its size and its row count. -/
theorem writeEndSection_eq {writer : OstreamSnapshotWriter} {written body : List UInt8}
    (isAtEnd : writer.snapshot = atEnd (written ++
      (writeWord 8 snapshotEndMarker ++ (writeWord 8 snapshotEndMarker ++ body))))
    (isSection : writer.sectionPos = some written.length) :
    writer.writeEndSection = .ok { writer with
      snapshot := atEnd (written ++ (writeWord 8 ((8 + body.length) % 2 ^ 64) ++
        (writeWord 8 writer.rowCount ++ body)))
      sectionPos := none
      rowCount := 0 } := by
  have size : (writer.snapshot.position + 2 ^ 64 - written.length - 8) % 2 ^ 64 =
      (8 + body.length) % 2 ^ 64 := by
    rw [isAtEnd]
    simp only [atEnd, length_append, length_writeWord]
    omega
  have sized := @write_over written (writeWord 8 snapshotEndMarker)
    (writeWord 8 ((8 + body.length) % 2 ^ 64)) (by simp) (writeWord 8 snapshotEndMarker ++ body)
  have counted := @write_over (written ++ writeWord 8 ((8 + body.length) % 2 ^ 64))
    (writeWord 8 snapshotEndMarker) (writeWord 8 writer.rowCount) (by simp) body
  rw [length_append, append_assoc, append_assoc] at counted
  unfold writeEndSection
  rw [isSection]
  dsimp only
  rw [size, isAtEnd]
  simp only [seek, atEnd]
  rw [sized, counted]
  simp

theorem writeSection_eq (isAtEnd : writer.snapshot = atEnd written)
    (closed : writer.sectionPos = none) (added : SnapshotSection Row) :
    writer.writeSection codec added =
      .ok { writer with snapshot := atEnd (written ++ added.bytes codec), rowCount := 0 } := by
  have started : writer.writeStartSection added.name = .ok { writer with
      snapshot := atEnd (written ++ (writeWord 8 snapshotEndMarker ++
        (writeWord 8 snapshotEndMarker ++ (added.name ++ [0]))))
      sectionPos := some written.length
      rowCount := 0 } := by
    unfold writeStartSection
    rw [eosAssert_of closed, ok_bind, isAtEnd]
    simp only [write_atEnd, append_assoc]
    rfl
  unfold writeSection
  rw [started, ok_bind, foldl_writeRow rfl (by decide : 0 < 2 ^ 64)]
  rw [@writeEndSection_eq _ written (added.body codec) _ rfl]
  · simp [SnapshotSection.bytes, closed]
  · simp [body, rowsBytes]

theorem foldlM_writeSection {writer : OstreamSnapshotWriter} {written : List UInt8}
    (isAtEnd : writer.snapshot = atEnd written) (closed : writer.sectionPos = none)
    (sections : List (SnapshotSection Row)) :
    ∃ last, sections.foldlM (writeSection codec) writer = .ok last ∧
      last.snapshot = atEnd (written ++ sections.flatMap (SnapshotSection.bytes codec)) := by
  induction sections generalizing writer written with
  | nil => exact ⟨writer, rfl, by rw [isAtEnd, flatMap_nil, append_nil]⟩
  | cons added rest ih =>
    rw [foldlM_cons, writeSection_eq isAtEnd closed, ok_bind, flatMap_cons, ← append_assoc]
    exact ih rfl closed

theorem writeSnapshot_eq (before : List UInt8) (sections : List (SnapshotSection Row)) :
    ∃ writer, writeSnapshot codec sections (atEnd before) = .ok writer ∧
      writer.snapshot.bytes = before ++ (snapshotHeader ++ allBytes codec sections) := by
  obtain ⟨last, ran, isLast⟩ := @foldlM_writeSection _ _ codec (create (atEnd before)) _
    (congrArg OstreamSnapshotWriter.snapshot (create_atEnd before)) rfl sections
  refine ⟨last.finalize, ?_, ?_⟩
  · unfold writeSnapshot
    rw [ran, ok_bind]
    rfl
  · rw [finalize, isLast, write_atEnd]
    simp [atEnd, allBytes]

end OstreamSnapshotWriter

/-! ### Finding sections -/

namespace IstreamSnapshotReader

open ByteStream SnapshotSection

theorem endMarker_lt : snapshotEndMarker < 256 ^ 8 := by decide

theorem readNumber_size {before : List UInt8} {added : SnapshotSection Row}
    (fits : (before ++ (added.bytes codec ++ after)).length < 2 ^ 63) :
    readNumber ⟨before ++ (added.bytes codec ++ after), before.length⟩ 8 =
      some (8 + (added.body codec).length,
        ⟨before ++ (added.bytes codec ++ after), before.length + 8⟩) := by
  rw [length_append, length_append, length_bytes] at fits
  have size : (8 + (added.body codec).length) % 2 ^ 64 = 8 + (added.body codec).length :=
    Nat.mod_eq_of_lt (by omega)
  rw [SnapshotSection.bytes, size, append_assoc]
  exact readNumber_writeWord (by omega) before _

theorem readNumber_rowCount {before : List UInt8} {added : SnapshotSection Row}
    (counted : added.rows.length < 2 ^ 64) :
    readNumber ⟨before ++ (added.bytes codec ++ after), before.length + 8⟩ 8 =
      some (added.rows.length, ⟨before ++ (added.bytes codec ++ after), before.length + 16⟩) := by
  have read := @readNumber_writeWord 8 added.rows.length (by omega)
    (before ++ writeWord 8 ((8 + (added.body codec).length) % 2 ^ 64)) (added.body codec ++ after)
  rw [length_append, length_writeWord, append_assoc] at read
  rw [SnapshotSection.bytes, Nat.mod_eq_of_lt counted, append_assoc, append_assoc]
  exact read

theorem size_ne_endMarker {before : List UInt8} {added : SnapshotSection Row}
    (fits : (before ++ (added.bytes codec ++ after)).length < 2 ^ 63) :
    8 + (added.body codec).length ≠ snapshotEndMarker := by
  rw [length_append, length_append, length_bytes] at fits
  unfold snapshotEndMarker
  omega

theorem seekBy_size {before : List UInt8} {added : SnapshotSection Row}
    (fits : (before ++ (added.bytes codec ++ after)).length < 2 ^ 63) :
    seekBy (before.length + 8) (8 + (added.body codec).length) =
      some (before ++ added.bytes codec).length := by
  rw [length_append, length_append, length_bytes] at fits
  rw [seekBy, if_pos (by omega), length_append, length_bytes]
  congr 1
  omega

theorem validateSections_eq {rounds : Nat} {before : List UInt8}
    {sections : List (SnapshotSection Row)} (enough : sections.length < rounds)
    (fits : (before ++ allBytes codec sections).length < 2 ^ 63) :
    validateSections rounds ⟨before ++ allBytes codec sections, before.length⟩ = .ok () := by
  induction sections generalizing rounds before with
  | nil =>
    obtain ⟨rounds, rfl⟩ := Nat.exists_eq_succ_of_ne_zero (Nat.ne_of_gt enough)
    have marker := readNumber_writeWord endMarker_lt before []
    rw [append_nil] at marker
    simp only [validateSections, allBytes, flatMap_nil, nil_append, marker, orThrow_some,
      ok_bind, if_pos]
    rfl
  | cons added rest ih =>
    obtain ⟨rounds, rfl⟩ := Nat.exists_eq_succ_of_ne_zero (Nat.ne_of_gt (Nat.zero_lt_of_lt enough))
    rw [allBytes_cons] at fits ⊢
    rw [validateSections, readNumber_size fits, orThrow_some, ok_bind]
    dsimp only
    rw [if_neg (size_ne_endMarker fits), seekBy_size fits, orThrow_some, ok_bind]
    rw [← append_assoc] at fits
    have later := ih (Nat.lt_of_succ_lt_succ enough) fits
    rw [append_assoc] at later
    exact later

/-- A name without zeros matches a written name exactly if it is this name. -/
theorem matchName_eq {name written : List UInt8} (noZero : 0 ∉ name)
    (ascii : ∀ c ∈ written, c ≠ 0 ∧ c < 128) (after : List UInt8) :
    matchName name (written ++ 0 :: after) = some (decide (written = name)) := by
  induction written generalizing name with
  | nil =>
    cases name with
    | nil => simp [matchName]
    | cons c name =>
      have nonzero : signedChar c ≠ 0 := by
        have differs : c.toNat ≠ 0 := by
          intro zero
          exact noZero (by rw [← UInt8.toNat_inj.mp (zero.trans rfl : c.toNat = (0 : UInt8).toNat)]
                           exact mem_cons_self)
        have bound := c.toNat_lt
        unfold signedChar
        split_ifs <;> omega
      rw [nil_append, matchName, if_pos]
      · simp
      · intro same
        exact nonzero same.symm
  | cons byte written ih =>
    obtain ⟨nonzero, small⟩ := ascii byte mem_cons_self
    cases name with
    | nil => simp [matchName, nonzero]
    | cons c name =>
      rw [cons_append, matchName]
      have noZero' : 0 ∉ name := fun member => noZero (mem_cons_of_mem _ member)
      have ascii' : ∀ c ∈ written, c ≠ 0 ∧ c < 128 := fun c member =>
        ascii c (mem_cons_of_mem _ member)
      have same : (byte.toNat : Int) = signedChar c ↔ byte = c := by
        have byteSmall : byte.toNat < 128 := UInt8.lt_iff_toNat_lt.mp small
        rw [← UInt8.toNat_inj]
        have bound := c.toNat_lt
        unfold signedChar
        split_ifs <;> omega
      rw [ih noZero' ascii']
      by_cases equal : byte = c
      · rw [if_neg (not_not.mpr (same.mpr equal))]
        simp [equal]
      · rw [if_pos (mt same.mp equal)]
        simp [equal]

theorem rest_atName (before after : List UInt8) (added : SnapshotSection Row) :
    rest ⟨before ++ (added.bytes codec ++ after), before.length + 16⟩ =
      added.name ++ 0 :: (rowsBytes codec added.rows ++ after) := by
  have front : (before ++ (writeWord 8 ((8 + (added.body codec).length) % 2 ^ 64) ++
      writeWord 8 (added.rows.length % 2 ^ 64))).length = before.length + 16 := by
    simp
  have bytes : before ++ (added.bytes codec ++ after) = (before ++
      (writeWord 8 ((8 + (added.body codec).length) % 2 ^ 64) ++
        writeWord 8 (added.rows.length % 2 ^ 64))) ++
          (added.name ++ 0 :: (rowsBytes codec added.rows ++ after)) := by
    simp [SnapshotSection.bytes, body]
  rw [rest, bytes]
  exact drop_left' front

def locate (codec : ∀ kind, Codec (Row kind)) (name : List UInt8) :
    Nat → List (SnapshotSection Row) → Option (Nat × Nat)
  | _, [] => none
  | position, added :: rest =>
    if added.name = name then some (added.rows.length, position + 16 + name.length + 1)
    else locate codec name (position + (added.bytes codec).length) rest

structure Writable (sections : List (SnapshotSection Row)) : Prop where
  ascii : ∀ added ∈ sections, ∀ c ∈ added.name, c ≠ 0 ∧ c < 128
  counted : ∀ added ∈ sections, added.rows.length < 2 ^ 64

theorem searchSection_eq (noZero : 0 ∉ name) {rounds : Nat} {before : List UInt8}
    {sections : List (SnapshotSection Row)} (writable : Writable sections)
    (enough : sections.length < rounds)
    (fits : (before ++ allBytes codec sections).length < 2 ^ 63) :
    searchSection name rounds ⟨before ++ allBytes codec sections, before.length⟩ =
      .ok (locate codec name before.length sections) := by
  induction sections generalizing rounds before with
  | nil =>
    obtain ⟨rounds, rfl⟩ := Nat.exists_eq_succ_of_ne_zero (Nat.ne_of_gt enough)
    have marker := readNumber_writeWord endMarker_lt before []
    rw [append_nil] at marker
    simp only [searchSection, allBytes, flatMap_nil, nil_append, marker, orThrow_some,
      ok_bind, if_pos]
    rfl
  | cons added rest ih =>
    obtain ⟨rounds, rfl⟩ := Nat.exists_eq_succ_of_ne_zero (Nat.ne_of_gt (Nat.zero_lt_of_lt enough))
    rw [allBytes_cons] at fits ⊢
    have compared := @matchName_eq name added.name noZero (writable.ascii added mem_cons_self)
      (rowsBytes codec added.rows ++ allBytes codec rest)
    rw [searchSection, readNumber_size fits, orThrow_some, ok_bind]
    dsimp only
    rw [if_neg (size_ne_endMarker fits), readNumber_rowCount (writable.counted added mem_cons_self),
      orThrow_some, ok_bind]
    dsimp only
    rw [rest_atName, compared, orThrow_some, ok_bind, locate]
    by_cases isName : added.name = name
    · rw [if_pos (decide_eq_true isName), if_pos isName]
      rfl
    · rw [if_neg (by simpa using isName), if_neg isName, seekBy_size fits, orThrow_some, ok_bind]
      rw [← append_assoc] at fits
      have later := ih
        ⟨fun other member => writable.ascii other (mem_cons_of_mem _ member),
          fun other member => writable.counted other (mem_cons_of_mem _ member)⟩
        (Nat.lt_of_succ_lt_succ enough) fits
      rw [append_assoc] at later
      rw [← length_append]
      exact later

theorem isSome_locate (name : List UInt8) (position : Nat) (sections : List (SnapshotSection Row)) :
    (locate codec name position sections).isSome = decide (name ∈ sections.map (·.name)) := by
  induction sections generalizing position with
  | nil => rfl
  | cons added rest ih =>
    rw [locate]
    by_cases isName : added.name = name
    · rw [if_pos isName]
      simp [isName]
    · rw [if_neg isName, ih]
      simp [Ne.symm isName]

theorem locate_append {skipped : List (SnapshotSection Row)} (missing : name ∉ skipped.map (·.name))
    (position : Nat) (sections : List (SnapshotSection Row)) :
    locate codec name position (skipped ++ sections) =
      locate codec name (position + (skipped.flatMap (SnapshotSection.bytes codec)).length)
        sections := by
  induction skipped generalizing position with
  | nil => rfl
  | cons added skipped ih =>
    rw [map_cons, mem_cons, not_or] at missing
    rw [cons_append, locate, if_neg (Ne.symm missing.1), ih missing.2,
      flatMap_cons, length_append, Nat.add_assoc]

def withMore {α : Type} : List α → List (α × Bool)
  | [] => []
  | row :: rows => (row, decide (rows ≠ [])) :: withMore rows

theorem readRow_eq {reader : IstreamSnapshotReader} {front : List UInt8} {row : Σ kind, Row kind}
    (atRow : reader.snapshot =
      ⟨front ++ (OstreamSnapshotWriter.packRow codec row ++ after), front.length⟩)
    (counted : reader.curRow + 1 < 2 ^ 64) :
    ∃ next, reader.readRow codec row.1 =
        .ok ((row.2, decide (reader.curRow + 1 < reader.numRows)), next) ∧
      next.snapshot = ⟨(front ++ OstreamSnapshotWriter.packRow codec row) ++ after,
        (front ++ OstreamSnapshotWriter.packRow codec row).length⟩ ∧
      next.curRow = reader.curRow + 1 ∧ next.numRows = reader.numRows := by
  have unpacked : (codec row.1).unpack reader.snapshot.rest = some (row.2, after) := by
    rw [atRow, rest, drop_left]
    exact (codec row.1).unpack_pack row.2 after
  have position : reader.snapshot.bytes.length - after.length =
      (front ++ OstreamSnapshotWriter.packRow codec row).length := by
    rw [atRow]
    simp only [length_append]
    omega
  refine ⟨{ reader with
    snapshot := reader.snapshot.seek (reader.snapshot.bytes.length - after.length)
    curRow := reader.curRow + 1 }, ?_, ?_, rfl, rfl⟩
  · unfold readRow
    rw [unpacked, orThrow_some, ok_bind, Nat.mod_eq_of_lt counted]
    rfl
  · rw [position, seek, atRow, append_assoc]

theorem readRows_eq {rows : List (Σ kind, Row kind)} {reader : IstreamSnapshotReader}
    {front after : List UInt8}
    (atRows : reader.snapshot = ⟨front ++ (rowsBytes codec rows ++ after), front.length⟩)
    (remaining : reader.curRow + rows.length = reader.numRows) (counted : reader.numRows < 2 ^ 64) :
    ∃ last, reader.readRows codec (rows.map (·.1)) = .ok (withMore rows, last) := by
  induction rows generalizing reader front with
  | nil => exact ⟨reader, rfl⟩
  | cons row rows ih =>
    rw [length_cons] at remaining
    have atRow : reader.snapshot = ⟨front ++ (OstreamSnapshotWriter.packRow codec row ++
        (rowsBytes codec rows ++ after)), front.length⟩ := by
      rw [atRows]
      simp [rowsBytes]
    obtain ⟨next, read, atRest, curRow, numRows⟩ := readRow_eq atRow (by omega)
    have more : decide (reader.curRow + 1 < reader.numRows) = decide (rows ≠ []) := by
      rw [decide_eq_decide, ← length_pos_iff]
      omega
    obtain ⟨last, ran⟩ := ih atRest (by omega) (by omega)
    refine ⟨last, ?_⟩
    rw [map_cons, readRows, read, ok_bind, more]
    dsimp only
    rw [ran, ok_bind]
    rfl

/-! ### The round trip -/

structure Reads (file : List UInt8) (headerPos : Nat) (reader : IstreamSnapshotReader) : Prop where
  bytes : reader.snapshot.bytes = file
  headerPos : reader.headerPos = headerPos

theorem Reads.step {file : List UInt8} {headerPos : Nat} {reader next : IstreamSnapshotReader}
    (reads : Reads file headerPos reader) (step : Step codec reader next) :
    Reads file headerPos next := by
  cases step with
  | setSection name ran =>
    unfold setSection at ran
    obtain ⟨found, -, ran⟩ := of_bind ran
    cases found with
    | none => cases ran
    | some place =>
      obtain rfl := Except.ok.inj ran
      exact ⟨reads.bytes, reads.headerPos⟩
  | readRow kind result ran =>
    unfold readRow at ran
    obtain ⟨unpacked, -, ran⟩ := of_bind ran
    obtain ⟨-, rfl⟩ := Prod.mk.inj (Except.ok.inj ran)
    exact ⟨reads.bytes, reads.headerPos⟩
  | clearSection => exact ⟨reads.bytes, reads.headerPos⟩

section File

variable {before : List UInt8} {sections : List (SnapshotSection Row)}
  {reader : IstreamSnapshotReader}

theorem validate_create
    (fits : (before ++ (snapshotHeader ++ allBytes codec sections)).length < 2 ^ 63) :
    (create ⟨before ++ (snapshotHeader ++ allBytes codec sections), before.length⟩).validate =
      .ok () := by
  have totem := readNumber_writeWord (by decide : snapshotMagicNumber < 256 ^ 4) before
    (writeWord 4 currentSnapshotVersion ++ allBytes codec sections)
  have version := readNumber_writeWord (by decide : currentSnapshotVersion < 256 ^ 4)
    (before ++ writeWord 4 snapshotMagicNumber) (allBytes codec sections)
  have bytes : before ++ (snapshotHeader ++ allBytes codec sections) =
      (before ++ snapshotHeader) ++ allBytes codec sections := by simp
  have rounds := @length_lt_allBytes _ _ codec sections
  have checked := @validateSections_eq _ _ codec
    ((before ++ (snapshotHeader ++ allBytes codec sections)).length + 1) (before ++ snapshotHeader)
    sections (by simp only [length_append]; omega) (by rwa [← bytes])
  simp only [snapshotHeader, append_assoc, length_append, length_writeWord] at version checked ⊢
  unfold validate create
  rw [totem, orThrow_some, ok_bind]
  dsimp only
  rw [eosAssert_of rfl, ok_bind, version, orThrow_some, ok_bind]
  dsimp only
  rw [eosAssert_of rfl, ok_bind]
  simp only [length_append, length_writeWord]
  exact checked

section

variable (writable : Writable sections)
  (fits : (before ++ (snapshotHeader ++ allBytes codec sections)).length < 2 ^ 63)
  (reads : Reads (before ++ (snapshotHeader ++ allBytes codec sections)) before.length reader)
  (noZero : 0 ∉ name)

include writable fits reads noZero

theorem findSection_eq :
    reader.findSection name = .ok (locate codec name (before.length + 8) sections) := by
  have bytes : before ++ (snapshotHeader ++ allBytes codec sections) =
      (before ++ snapshotHeader) ++ allBytes codec sections := by simp
  have header : (before ++ snapshotHeader).length = before.length + 8 := by
    simp [snapshotHeader]
  have rounds := @length_lt_allBytes _ _ codec sections
  unfold findSection
  rw [seek, reads.bytes, reads.headerPos, bytes, ← header]
  rw [bytes] at fits
  apply searchSection_eq noZero writable _ fits
  rw [length_append]
  omega

theorem hasSection_eq : reader.hasSection name = .ok (decide (name ∈ sections.map (·.name))) := by
  unfold hasSection
  rw [findSection_eq writable fits reads noZero, ok_bind, isSome_locate]
  rfl

end

theorem exists_front (before : List UInt8) (skipped : List (SnapshotSection Row))
    (visited : SnapshotSection Row) (rest : List (SnapshotSection Row)) :
    ∃ front,
      before ++ (snapshotHeader ++ allBytes codec (skipped ++ visited :: rest)) =
        front ++ (rowsBytes codec visited.rows ++ allBytes codec rest) ∧
      front.length = before.length + 8 +
        (skipped.flatMap (SnapshotSection.bytes codec)).length + 16 + visited.name.length + 1 := by
  refine ⟨before ++ (snapshotHeader ++ (skipped.flatMap (SnapshotSection.bytes codec) ++
    (writeWord 8 ((8 + (visited.body codec).length) % 2 ^ 64) ++
      (writeWord 8 (visited.rows.length % 2 ^ 64) ++ (visited.name ++ [0]))))), ?_, ?_⟩
  · simp [allBytes, SnapshotSection.bytes, body]
  · simp only [snapshotHeader, length_append, length_writeWord, length_singleton]
    omega

theorem readRows_setSection (writable : Writable sections)
    (distinct : (sections.map (·.name)).Nodup)
    (fits : (before ++ (snapshotHeader ++ allBytes codec sections)).length < 2 ^ 63)
    (reads : Reads (before ++ (snapshotHeader ++ allBytes codec sections)) before.length reader)
    {visited : SnapshotSection Row} (member : visited ∈ sections) :
    ∃ opened last, reader.setSection visited.name = .ok opened ∧
      opened.readRows codec (visited.rows.map (·.1)) = .ok (withMore visited.rows, last) := by
  have noZero : 0 ∉ visited.name := fun zero => (writable.ascii visited member 0 zero).1 rfl
  have counted := writable.counted visited member
  have found := findSection_eq writable fits reads noZero
  obtain ⟨skipped, rest, rfl⟩ := append_of_mem member
  have missing : visited.name ∉ skipped.map (·.name) := by
    rw [map_append, map_cons] at distinct
    intro earlier
    exact disjoint_of_nodup_append distinct earlier mem_cons_self
  rw [locate_append missing, locate, if_pos rfl] at found
  obtain ⟨front, isFile, position⟩ := @exists_front _ _ codec before skipped visited rest
  have opened : reader.setSection visited.name = .ok { reader with
      snapshot := reader.snapshot.seek front.length
      curRow := 0
      numRows := visited.rows.length } := by
    unfold setSection
    rw [found, ok_bind, position]
    rfl
  obtain ⟨last, ran⟩ := @readRows_eq _ _ codec visited.rows { reader with
      snapshot := reader.snapshot.seek front.length
      curRow := 0
      numRows := visited.rows.length } front (allBytes codec rest)
    (by rw [seek, reads.bytes, isFile]) (Nat.zero_add _) counted
  exact ⟨_, last, opened, ran⟩

end File

/-- **The round trip of binary snapshots**: a snapshot that is written behind anything else is
valid; after any calls the reader has exactly the written sections, and returns the rows of each in
order and whether there are more. -/
theorem snapshot_roundTrip (codec : ∀ kind, Codec (Row kind)) (before : List UInt8)
    (sections : List (SnapshotSection Row)) (distinct : (sections.map (·.name)).Nodup)
    (writable : Writable sections) :
    ∃ writer, OstreamSnapshotWriter.writeSnapshot codec sections (atEnd before) = .ok writer ∧
      (writer.snapshot.bytes.length < 2 ^ 63 →
        (create ⟨writer.snapshot.bytes, before.length⟩).validate = .ok () ∧
        ∀ visited reader,
          Run (Step codec) (create ⟨writer.snapshot.bytes, before.length⟩) visited reader →
            (∀ name, 0 ∉ name →
              reader.hasSection name = .ok (decide (name ∈ sections.map (·.name)))) ∧
            ∀ chosen ∈ sections, ∃ opened last, reader.setSection chosen.name = .ok opened ∧
              opened.readRows codec (chosen.rows.map (·.1)) =
                .ok (withMore chosen.rows, last)) := by
  obtain ⟨writer, wrote, bytes⟩ := @OstreamSnapshotWriter.writeSnapshot_eq _ _ codec before sections
  refine ⟨writer, wrote, ?_⟩
  rw [bytes]
  intro fits
  refine ⟨validate_create fits, fun visited reader run => ?_⟩
  have reads : Reads (before ++ (snapshotHeader ++ allBytes codec sections)) before.length reader := by
    induction run with
    | refl => exact ⟨rfl, rfl⟩
    | snoc _ step ih => exact ih.step step
  exact ⟨fun name noZero => hasSection_eq writable fits reads noZero,
    fun chosen member => readRows_setSection writable distinct fits reads member⟩

def byteRows (_ : Unit) : Codec UInt8 where
  pack := fun byte => [byte]
  unpack
    | [] => none
    | byte :: rest => some (byte, rest)
  unpack_pack := fun _ _ => rfl

/-- A section, and one without rows whose name begins with the same letter. -/
def twoSections : List (SnapshotSection fun _ : Unit => UInt8) :=
  [⟨[97, 98], [⟨(), 7⟩, ⟨(), 0⟩]⟩, ⟨[97], []⟩]

theorem writable_twoSections : Writable twoSections where
  ascii := by decide +kernel
  counted := by simp [twoSections]

theorem snapshot_roundTrip_two :
    ∃ writer, OstreamSnapshotWriter.writeSnapshot byteRows twoSections (atEnd [1]) =
        .ok writer ∧
      (writer.snapshot.bytes.length < 2 ^ 63 →
        (create ⟨writer.snapshot.bytes, 1⟩).validate = .ok () ∧
        ∀ visited reader,
          Run (Step byteRows) (create ⟨writer.snapshot.bytes, 1⟩) visited reader →
            (∀ name, 0 ∉ name →
              reader.hasSection name = .ok (decide (name ∈ twoSections.map (·.name)))) ∧
            ∀ chosen ∈ twoSections, ∃ opened last, reader.setSection chosen.name = .ok opened ∧
              opened.readRows byteRows (chosen.rows.map (·.1)) =
                .ok (withMore chosen.rows, last)) :=
  snapshot_roundTrip _ [1] twoSections (by decide) writable_twoSections

end IstreamSnapshotReader

end CodexRelay.Chain
