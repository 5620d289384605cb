import CodexRelay.Library.ByteFile
import CodexRelay.Library.Run
import CodexRelay.Chain.Types

/-!
Contract: the files of the block log.

Owns:
- `block_log` with its two files: `reset`, `append`, `open`, `construct_index`, `read_head`,
  `get_block_pos`, `read_block` and `read_block_by_num`;
- what the files hold in every run of appending and reopening, and that the blocks are read back.

Does not own: the packing of blocks and of the genesis state, which is that of `fc::raw`.

The log holds its version, the first block number, the genesis state, a separator and the blocks,
each followed by its position. The index holds these positions. A file cannot grow beyond the
largest offset of a stream; a write that would do so throws.
-/

namespace CodexRelay.Chain

open Library List

/-- The packing of `genesis_state` and `signed_block`, and the header of a block. -/
structure LogFormat (γ β : Type) where
  genesis : Codec γ
  block : Codec β
  header : β → BlockHeader

def LogFormat.blockNum {γ β : Type} (format : LogFormat γ β) (block : β) : Nat :=
  (format.header block).blockNum

/-- `detail::block_log_impl`, with the contents of its files. -/
structure BlockLogImpl (β : Type) where
  blockFile : Bytes
  indexFile : Bytes
  head : Option β
  headId : BlockId
  genesisWrittenToBlockLog : Bool
  version : Nat
  firstBlockNum : Nat
deriving DecidableEq

namespace BlockLogImpl

@[irreducible] def npos : Nat := 2 ^ 64 - 1

def maxSupportedVersion : Nat := 2

def minSupportedVersion : Nat := 1

/-- The largest value of `std::streamoff`. -/
@[irreducible] def maxFileSize : Nat := 2 ^ 63 - 1

def checkSize (file : Bytes) : Checked Unit :=
  eosAssert (file.length ≤ maxFileSize) .iosFailure "basic_ios::clear: iostream error"

def orFailure {α : Type} : Option α → Checked α
  | none => .error ⟨.iosFailure, "basic_ios::clear: iostream error"⟩
  | some value => .ok value

variable {γ β : Type} (fc : Primitives) (format : LogFormat γ β)

def append (log : BlockLogImpl β) (b : β) : Checked (BlockLogImpl β) := captureAndRethrow do
  eosAssert log.genesisWrittenToBlockLog .blockLogAppendFail
    "Cannot append to block log until the genesis is first written"
  let pos := log.blockFile.length
  eosAssert (log.indexFile.length = 8 * ((format.blockNum b + 2 ^ 32 - log.firstBlockNum) % 2 ^ 32))
    .blockLogAppendFail "Append to index file occuring at wrong position."
  let blockFile := log.blockFile ++ (format.block.pack b ++ writeWord 8 pos)
  let indexFile := log.indexFile ++ writeWord 8 pos
  checkSize blockFile
  checkSize indexFile
  return { log with
    blockFile := blockFile
    indexFile := indexFile
    head := some b
    headId := (format.header b).id fc }

def reset (gs : γ) (firstBlock : Option β) (firstBlockNum : Nat) : Checked (BlockLogImpl β) := do
  let blockFile := writeWord 4 0 ++ writeWord 4 firstBlockNum ++ format.genesis.pack gs ++
    writeWord 8 npos
  checkSize blockFile
  let empty : BlockLogImpl β :=
    { blockFile := blockFile
      indexFile := []
      head := none
      headId := 0
      genesisWrittenToBlockLog := true
      version := 0
      firstBlockNum := firstBlockNum }
  let log ← firstBlock.elim (.ok empty) (append fc format empty)
  return { log with
    version := maxSupportedVersion
    blockFile := writeWord 4 maxSupportedVersion ++ log.blockFile.drop 4 }

/-- `block_log::read_block`: the block at a position and the position after it. -/
def readBlock (blockFile : Bytes) (pos : Nat) : Checked (β × Nat) := do
  let (block, rest) ← orFailure (format.block.unpack (blockFile.drop pos))
  return (block, blockFile.length - rest.length + 8)

def readHead (blockFile : Bytes) : Checked (Option β) := do
  if blockFile.length ≤ 8 then return none
  else
    let pos ← orFailure (lastWord 8 blockFile)
    if pos ≠ npos then
      let (block, _) ← readBlock format blockFile pos
      return some block
    else return none

/-- The loop of `construct_index`. It reads eight bytes in every step, so the length of the
stream bounds the number of steps. -/
def indexBlocks (endPos : Nat) : (steps : Nat) → (pos : Nat) → (stream index : Bytes) →
    Checked Bytes
  | 0, _, _, _ => .error ⟨.fault, "the loop does not end"⟩
  | steps + 1, pos, stream, index =>
    if pos < endPos then do
      let (_, stream) ← orFailure (format.block.unpack stream)
      let (pos, stream) ← orFailure (takeWord 8 stream)
      indexBlocks endPos steps pos stream (index ++ writeWord 8 pos)
    else .ok index

def constructIndex (log : BlockLogImpl β) : Checked (BlockLogImpl β) := do
  let endPos ← orFailure (lastWord 8 log.blockFile)
  if endPos = npos then return { log with indexFile := [] }
  else
    let pos := if log.version = 1 then 4 else 8
    let (_, stream) ← orFailure (format.genesis.unpack (log.blockFile.drop pos))
    let stream ←
      if log.version > 1 then (·.2) <$> orFailure (takeWord 8 stream) else pure stream
    let index ← indexBlocks format endPos (stream.length + 1) pos stream []
    return { log with indexFile := index }

/-- `block_log::open`, of files with these contents. A file that is missing is created empty. -/
def openFiles (blockFile indexFile : Bytes) : Checked (BlockLogImpl β) := do
  let closed : BlockLogImpl β :=
    { blockFile := blockFile
      indexFile := indexFile
      head := none
      headId := 0
      genesisWrittenToBlockLog := false
      version := 0
      firstBlockNum := 0 }
  if blockFile.length ≠ 0 then
    let version ← orFailure (readWord 4 blockFile 0)
    eosAssert (version > 0) .blockLogException "Block log was not setup properly"
    eosAssert (version ≥ minSupportedVersion ∧ version ≤ maxSupportedVersion)
      .blockLogUnsupportedVersion "Unsupported version of block log."
    let firstBlockNum ← if version > 1 then orFailure (readWord 4 blockFile 4) else pure 1
    eosAssert (firstBlockNum > 0) .blockLogException
      "Block log is malformed, first recorded block number is 0 but must be greater than or equal to 1"
    let head ← readHead format blockFile
    let log := { closed with
      genesisWrittenToBlockLog := true
      version := version
      firstBlockNum := firstBlockNum
      head := head
      headId := head.elim 0 fun block => (format.header block).id fc }
    if indexFile.length ≠ 0 then
      let blockPos ← orFailure (lastWord 8 blockFile)
      let indexPos ← orFailure (lastWord 8 indexFile)
      if blockPos < indexPos then constructIndex format log
      else if blockPos > indexPos then constructIndex format log
      else return log
    else constructIndex format log
  else if indexFile.length ≠ 0 then return { closed with indexFile := [] }
  else return closed

def getBlockPos (log : BlockLogImpl β) (blockNum : Nat) : Checked Nat :=
  if log.head.isSome ∧ blockNum ≤ BlockHeader.numFromId log.headId ∧ blockNum ≥ log.firstBlockNum then
    orFailure (readWord 8 log.indexFile (8 * (blockNum - log.firstBlockNum)))
  else .ok npos

def readBlockByNum (log : BlockLogImpl β) (blockNum : Nat) : Checked (Option β) :=
  captureAndRethrow do
    let pos ← getBlockPos log blockNum
    if pos ≠ npos then
      let (b, _) ← readBlock format log.blockFile pos
      eosAssert (format.blockNum b = blockNum) .reversibleBlocksException
        "Wrong block was read from block log."
      return some b
    else return none

/-! ### What the files hold -/

def preamble (version firstBlockNum : Nat) (gs : γ) : Bytes :=
  writeWord 4 version ++ writeWord 4 firstBlockNum ++ format.genesis.pack gs ++ writeWord 8 npos

def base (gs : γ) : Nat := 16 + (format.genesis.pack gs).length

/-- A log with these blocks, which are numbered from the first block number on. -/
structure Holds (version : Nat) (gs : γ) (firstBlockNum : Nat) (blocks : List β) (log : BlockLogImpl β) :
    Prop where
  file : log.blockFile =
    preamble format version firstBlockNum gs ++ records (base format gs) (blocks.map format.block.pack)
  index : log.indexFile = wordTable 8 (positions (base format gs) (blocks.map format.block.pack))
  size : log.blockFile.length ≤ maxFileSize
  numbers : ∀ i block, blocks[i]? = some block → format.blockNum block = firstBlockNum + i
  isVersion : log.version = version
  first : log.firstBlockNum = firstBlockNum
  written : log.genesisWrittenToBlockLog = true
  head : log.head = blocks.getLast?
  headId : log.headId = blocks.getLast?.elim 0 fun block => (format.header block).id fc

variable {fc format}

theorem length_preamble (version firstBlockNum : Nat) (gs : γ) :
    (preamble format version firstBlockNum gs).length = base format gs := by
  simp only [preamble, base, length_append, length_writeWord]
  omega

section Reading

variable {version firstBlockNum : Nat} {gs : γ} {blocks before after : List β} {block : β}
  {log : BlockLogImpl β}

def posAfter (format : LogFormat γ β) (gs : γ) (before : List β) : Nat :=
  base format gs + (records (base format gs) (before.map format.block.pack)).length

section

variable (holds : Holds fc format version gs firstBlockNum (before ++ block :: after) log)

include holds

theorem Holds.file_split :
    ∃ front back, log.blockFile = front ++ (format.block.pack block ++
      (writeWord 8 (posAfter format gs before) ++ back)) ∧ front.length = posAfter format gs before ∧
        (after = [] → back = []) := by
  have file := holds.file
  rw [map_append, map_cons, records_split, ← append_assoc] at file
  refine ⟨_, _, file, ?_, ?_⟩
  · rw [length_append, length_preamble]
    rfl
  · rintro rfl
    rfl

theorem Holds.posAfter_lt : posAfter format gs before < 2 ^ 63 := by
  obtain ⟨front, back, file, start, -⟩ := holds.file_split
  have size := holds.size
  rw [file] at size
  simp only [length_append, start, maxFileSize] at size
  omega

theorem readBlock_of_holds :
    ∃ next, readBlock format log.blockFile (posAfter format gs before) = .ok (block, next) := by
  obtain ⟨front, back, file, start, -⟩ := holds.file_split
  unfold readBlock
  rw [file, ← start, drop_left, format.block.unpack_pack]
  exact ⟨_, rfl⟩

end

theorem Holds.lastWord (holds : Holds fc format version gs firstBlockNum (before ++ [block]) log) :
    lastWord 8 log.blockFile = some (posAfter format gs before) := by
  have fits : posAfter format gs before < 256 ^ 8 := holds.posAfter_lt.trans (by norm_num)
  obtain ⟨front, back, file, start, isEnd⟩ := holds.file_split
  rw [file, isEnd rfl, append_nil, ← append_assoc]
  exact lastWord_append fits _

theorem posAfter_ne_npos (small : posAfter format gs before < 2 ^ 63) :
    posAfter format gs before ≠ npos := by
  unfold npos
  omega

theorem Holds.lastWord_nil (holds : Holds fc format version gs firstBlockNum [] log) :
    Library.lastWord 8 log.blockFile = some npos := by
  rw [holds.file, map_nil, records, append_nil]
  exact lastWord_append (by unfold npos; norm_num) _

section

variable (holds : Holds fc format version gs firstBlockNum blocks log)

include holds

theorem readHead_of_holds : readHead format log.blockFile = .ok blocks.getLast? := by
  have long : ¬ log.blockFile.length ≤ 8 := by
    rw [holds.file, length_append, length_preamble, base]
    omega
  unfold readHead
  rw [if_neg long]
  rcases eq_nil_or_concat' blocks with rfl | ⟨before, block, rfl⟩
  · rw [holds.lastWord_nil]
    exact if_neg (not_not.mpr rfl)
  · obtain ⟨next, read⟩ := readBlock_of_holds holds
    rw [holds.lastWord, orFailure, ok_bind, if_pos (posAfter_ne_npos holds.posAfter_lt), read, ok_bind,
      getLast?_concat]
    rfl

theorem readBlockByNum_of_holds (member : block ∈ blocks) :
    log.readBlockByNum format (format.blockNum block) = .ok (some block) := by
  obtain ⟨before, after, rfl⟩ := append_of_mem member
  have number : format.blockNum block = firstBlockNum + before.length :=
    holds.numbers before.length block (by simp)
  obtain ⟨last, isLast⟩ : ∃ last, (before ++ block :: after).getLast? = some last :=
    Option.isSome_iff_exists.mp (by simp)
  have lastNumber : format.blockNum last = firstBlockNum + (before.length + after.length) := by
    rw [getLast?_eq_getElem?] at isLast
    rw [holds.numbers _ last isLast]
    simp only [length_append, length_cons]
    omega
  have inside : log.head.isSome ∧ format.blockNum block ≤ BlockHeader.numFromId log.headId ∧
      format.blockNum block ≥ log.firstBlockNum := by
    rw [holds.head, holds.headId, isLast, Option.elim_some, BlockHeader.numFromId_id, holds.first]
    change _ ∧ _ ≤ format.blockNum last ∧ _
    rw [number, lastNumber]
    exact ⟨rfl, by omega, by omega⟩
  have small := holds.posAfter_lt
  have entry : readWord 8 log.indexFile (8 * (format.blockNum block - log.firstBlockNum)) =
      some (posAfter format gs before) := by
    have count : (positions (base format gs) (before.map format.block.pack)).length = before.length := by
      simp
    rw [holds.index, holds.first, number, Nat.add_sub_cancel_left, map_append, map_cons,
      positions_split, ← count]
    exact readWord_wordTable (small.trans (by norm_num))
  obtain ⟨next, read⟩ := readBlock_of_holds holds
  unfold readBlockByNum getBlockPos
  rw [if_pos inside, entry, orFailure, ok_bind, if_pos (posAfter_ne_npos small), read, ok_bind]
  dsimp only
  rw [eosAssert, if_pos rfl]
  rfl

end

end Reading

/-! ### The index -/

section Index

variable {version firstBlockNum : Nat} {gs : γ} {blocks : List β} {log : BlockLogImpl β}

/-- The loop writes the positions of the blocks that are left in the stream. -/
theorem indexBlocks_records {start pos endPos steps : Nat} {index : Bytes} (notEmpty : blocks ≠ [])
    (isEnd : (positions start (blocks.map format.block.pack)).getLast? = some endPos)
    (fits : endPos < 256 ^ 8) (earlier : pos < start) (enough : blocks.length < steps) :
    indexBlocks format endPos steps pos (records start (blocks.map format.block.pack)) index =
      .ok (index ++ wordTable 8 (positions start (blocks.map format.block.pack))) := by
  induction blocks generalizing start pos steps index with
  | nil => exact absurd rfl notEmpty
  | cons block rest ih =>
    obtain ⟨steps, rfl⟩ := Nat.exists_eq_succ_of_ne_zero (Nat.ne_of_gt (Nat.zero_lt_of_lt enough))
    have upTo : start ≤ endPos := le_of_mem_positions (mem_of_getLast? isEnd)
    unfold indexBlocks
    rw [if_pos (earlier.trans_le upTo), map_cons, records, format.block.unpack_pack, orFailure,
      ok_bind]
    dsimp only
    rw [takeWord_writeWord (upTo.trans_lt fits), orFailure, ok_bind]
    dsimp only
    cases rest with
    | nil =>
      obtain rfl : start = endPos := Option.some.inj isEnd
      obtain ⟨steps, rfl⟩ := Nat.exists_eq_succ_of_ne_zero (Nat.ne_of_gt (Nat.lt_of_succ_lt_succ enough))
      unfold indexBlocks
      rw [if_neg (lt_irrefl _)]
      simp [positions, wordTable]
    | cons following rest =>
      rw [ih (cons_ne_nil _ _) isEnd (by omega) (Nat.lt_of_succ_lt_succ enough), append_assoc]
      rfl

theorem getLast_positions (gs : γ) (before : List β) (block : β) :
    (positions (base format gs) ((before ++ [block]).map format.block.pack)).getLast? =
      some (posAfter format gs before) := by
  rw [map_append, map_cons, positions_split]
  exact getLast?_concat

/-- The index that is built from the log is the one that was written. -/
theorem Holds.constructIndex (holds : Holds fc format maxSupportedVersion gs firstBlockNum blocks log)
    (other : Bytes) :
    ({ log with indexFile := other } : BlockLogImpl β).constructIndex format = .ok log := by
  unfold BlockLogImpl.constructIndex
  dsimp only
  rcases eq_nil_or_concat' blocks with rfl | ⟨before, block, rfl⟩
  · have empty : log.indexFile = [] := holds.index
    rw [holds.lastWord_nil, orFailure, ok_bind, if_pos rfl, ← empty]
    rfl
  · have small := holds.posAfter_lt
    have stream : log.blockFile.drop 8 = format.genesis.pack gs ++ (writeWord 8 npos ++
        records (base format gs) ((before ++ [block]).map format.block.pack)) := by
      rw [holds.file, preamble]
      simp only [append_assoc]
      rw [← append_assoc]
      exact drop_left' (by simp)
    have enough : (before ++ [block]).length <
        (records (base format gs) ((before ++ [block]).map format.block.pack)).length + 1 := by
      have bound := length_records_ge (base format gs) ((before ++ [block]).map format.block.pack)
      rw [length_map] at bound
      omega
    have built : indexBlocks format (posAfter format gs before)
        ((records (base format gs) ((before ++ [block]).map format.block.pack)).length + 1) 8
        (records (base format gs) ((before ++ [block]).map format.block.pack)) [] = _ :=
      indexBlocks_records (by simp) (getLast_positions gs before block) (small.trans (by norm_num))
        (by unfold base; omega) enough
    rw [holds.lastWord, orFailure, ok_bind, if_neg (posAfter_ne_npos small), holds.isVersion,
      if_neg (by decide), stream, format.genesis.unpack_pack, orFailure, ok_bind]
    dsimp only
    rw [if_pos (by decide), takeWord_writeWord (by unfold npos; norm_num), orFailure]
    change (indexBlocks format (posAfter format gs before) _ 8
      (records (base format gs) ((before ++ [block]).map format.block.pack)) [] >>= _) = _
    rw [built, ok_bind, nil_append, ← holds.index, ← holds.isVersion]
    rfl

/-- A part of the index ends with a position. Where this is the position of the last block, the
part is the whole index. -/
theorem Holds.lastWord_take {before : List β} {block : β}
    (holds : Holds fc format version gs firstBlockNum (before ++ [block]) log) {count : Nat}
    (hasIndex : (log.indexFile.take (8 * count)).length ≠ 0) :
    ∃ pos, Library.lastWord 8 (log.indexFile.take (8 * count)) = some pos ∧
      (pos = posAfter format gs before → log.indexFile.take (8 * count) = log.indexFile) := by
  have increasing := positions_increasing (base format gs) ((before ++ [block]).map format.block.pack)
  have isLast : (positions (base format gs) ((before ++ [block]).map format.block.pack)).getLast? =
      some (posAfter format gs before) := getLast_positions gs before block
  rw [holds.index, take_wordTable] at hasIndex ⊢
  generalize positions (base format gs) ((before ++ [block]).map format.block.pack) = table at *
  rcases eq_nil_or_concat' (table.take count) with empty | ⟨front, pos, part⟩
  · rw [empty] at hasIndex
    exact absurd rfl hasIndex
  · have member : pos ∈ table := mem_of_mem_take (part ▸ mem_append_right _ mem_cons_self)
    have upTo := le_getLast_of_mem increasing isLast member
    have fits : pos < 256 ^ 8 := upTo.trans_lt (holds.posAfter_lt.trans (by norm_num))
    refine ⟨pos, by rw [part, lastWord_wordTable fits], ?_⟩
    rintro rfl
    rw [take_eq_self_of_getLast increasing isLast (by rw [part, getLast?_concat])]

/-- Opening the files with the index, a part of it, or none gives the log again. -/
theorem Holds.openFiles (holds : Holds fc format maxSupportedVersion gs firstBlockNum blocks log)
    (positive : 0 < firstBlockNum) (width : firstBlockNum < 2 ^ 32) (count : Nat) :
    openFiles fc format log.blockFile (log.indexFile.take (8 * count)) = .ok log := by
  have notEmpty : log.blockFile.length ≠ 0 := by
    rw [holds.file, length_append, length_preamble, base]
    omega
  have versionWord : readWord 4 log.blockFile 0 = some maxSupportedVersion := by
    rw [holds.file, preamble]
    simp only [append_assoc]
    exact readWord_append (by decide) [] _
  have firstWord : readWord 4 log.blockFile 4 = some firstBlockNum := by
    rw [holds.file, preamble]
    simp only [append_assoc]
    exact readWord_append (width.trans_le (by norm_num)) (writeWord 4 maxSupportedVersion) _
  unfold BlockLogImpl.openFiles
  dsimp only
  rw [if_pos notEmpty, versionWord, orFailure, ok_bind, eosAssert, if_pos (by decide), ok_bind,
    eosAssert, if_pos (by decide), ok_bind, if_pos (by decide), firstWord, orFailure, ok_bind,
    eosAssert, if_pos positive, ok_bind, readHead_of_holds holds, ok_bind, ← holds.headId,
    ← holds.head, ← holds.first]
  have opened : ∀ index : Bytes, (⟨log.blockFile, index, log.head, log.headId, true, maxSupportedVersion,
      log.firstBlockNum⟩ : BlockLogImpl β) = { log with indexFile := index } := by
    intro index
    rw [← holds.isVersion, ← holds.written]
  rw [opened]
  split_ifs with hasIndex
  · rcases eq_nil_or_concat' blocks with rfl | ⟨before, block, rfl⟩
    · have empty : log.indexFile = [] := holds.index
      rw [empty, take_nil] at hasIndex
      exact absurd rfl hasIndex
    · obtain ⟨pos, indexEnd, isWhole⟩ := holds.lastWord_take hasIndex
      rw [holds.lastWord, orFailure, ok_bind, indexEnd, orFailure, ok_bind]
      split_ifs with below above
      · exact holds.constructIndex _
      · exact holds.constructIndex _
      · rw [isWhole (le_antisymm (not_lt.mp below) (not_lt.mp above))]
        rfl
  · exact holds.constructIndex _

end Index

/-! ### Writing -/

section Writing

variable {version firstBlockNum : Nat} {gs : γ} {blocks : List β} {block : β} {log log' : BlockLogImpl β}

theorem Holds.length_file (holds : Holds fc format version gs firstBlockNum blocks log) :
    log.blockFile.length = posAfter format gs blocks := by
  rw [holds.file, length_append, length_preamble]
  rfl

theorem append_eq_ok (returned : log.append fc format block = .ok log') :
    log.genesisWrittenToBlockLog = true ∧
      log.indexFile.length = 8 * ((format.blockNum block + 2 ^ 32 - log.firstBlockNum) % 2 ^ 32) ∧
      log'.blockFile.length ≤ maxFileSize ∧
      log' = { log with
        blockFile := log.blockFile ++ (format.block.pack block ++ writeWord 8 log.blockFile.length)
        indexFile := log.indexFile ++ writeWord 8 log.blockFile.length
        head := some block
        headId := (format.header block).id fc } := by
  obtain ⟨_, written, returned⟩ := of_bind (captureAndRethrow_eq_ok.mp returned)
  obtain ⟨_, atEnd, returned⟩ := of_bind returned
  obtain ⟨_, fits, returned⟩ := of_bind returned
  obtain ⟨_, -, returned⟩ := of_bind returned
  obtain rfl := Except.ok.inj returned
  exact ⟨eosAssert_eq_ok.mp written, eosAssert_eq_ok.mp atEnd, eosAssert_eq_ok.mp fits, rfl⟩

theorem Holds.append (holds : Holds fc format version gs firstBlockNum blocks log)
    (number : format.blockNum block = firstBlockNum + blocks.length)
    (returned : log.append fc format block = .ok log') :
    Holds fc format version gs firstBlockNum (blocks ++ [block]) log' := by
  obtain ⟨-, -, size, rfl⟩ := append_eq_ok returned
  refine ⟨?_, ?_, size, ?_, holds.isVersion, holds.first, holds.written, ?_, ?_⟩
  · dsimp only
    rw [holds.length_file, posAfter, holds.file, map_append, map_singleton, records_split]
    simp only [records, append_nil, append_assoc]
  · dsimp only
    rw [holds.length_file, posAfter, holds.index, map_append, map_singleton, positions_split,
      wordTable_append]
    simp only [positions, wordTable, flatMap_cons, flatMap_nil, append_nil]
  · intro i other found
    rcases Nat.lt_or_ge i blocks.length with inside | outside
    · rw [getElem?_append_left inside] at found
      exact holds.numbers i other found
    · rw [getElem?_append_right outside] at found
      obtain ⟨atEnd, same⟩ := List.getElem?_eq_some_iff.mp found
      rw [length_singleton, Nat.lt_one_iff] at atEnd
      rw [← same, getElem_singleton, number, show i = blocks.length by omega]
  · exact getLast?_concat.symm
  · dsimp only
    rw [getLast?_concat, Option.elim_some]

/-- The log that `reset` starts with, before it has a version. -/
def emptyLog (format : LogFormat γ β) (gs : γ) (firstBlockNum : Nat) : BlockLogImpl β where
  blockFile := preamble format 0 firstBlockNum gs
  indexFile := []
  head := none
  headId := 0
  genesisWrittenToBlockLog := true
  version := 0
  firstBlockNum := firstBlockNum

theorem Holds.setVersion (holds : Holds fc format version gs firstBlockNum blocks log)
    (other : Nat) :
    Holds fc format other gs firstBlockNum blocks
      { log with version := other, blockFile := writeWord 4 other ++ log.blockFile.drop 4 } := by
  have file : writeWord 4 other ++ log.blockFile.drop 4 = preamble format other firstBlockNum gs ++
      records (base format gs) (blocks.map format.block.pack) := by
    rw [holds.file, preamble, preamble]
    simp only [append_assoc]
    rw [drop_left' (length_writeWord 4 version)]
  refine ⟨file, holds.index, ?_, holds.numbers, rfl, holds.first, holds.written, holds.head,
    holds.headId⟩
  dsimp only
  rw [file, length_append, length_preamble]
  have size := holds.size
  rwa [holds.file, length_append, length_preamble] at size

theorem holds_reset {firstBlock : Option β} (returned : reset fc format gs firstBlock firstBlockNum = .ok log)
    (numbered : ∀ block ∈ firstBlock, format.blockNum block = firstBlockNum) :
    Holds fc format maxSupportedVersion gs firstBlockNum firstBlock.toList log := by
  obtain ⟨_, fits, returned⟩ := of_bind returned
  have empty : Holds fc format 0 gs firstBlockNum [] (emptyLog format gs firstBlockNum) :=
    ⟨(append_nil _).symm, rfl, eosAssert_eq_ok.mp fits, by simp, rfl, rfl, rfl, rfl, rfl⟩
  obtain ⟨log, appended, returned⟩ := of_bind returned
  obtain rfl := Except.ok.inj returned
  apply Holds.setVersion
  · cases firstBlock with
    | none =>
      obtain rfl := Except.ok.inj appended
      exact empty
    | some block =>
      have number : format.blockNum block = firstBlockNum + ([] : List β).length := by
        rw [length_nil, Nat.add_zero]
        exact numbered block rfl
      rw [Option.elim_some] at appended
      exact empty.append number appended

/-- A block with the next number is appended, or the files are closed and opened again, with
the index or the first entries of it. -/
inductive Step (fc : Primitives) (format : LogFormat γ β) (firstBlockNum : Nat) :
    BlockLogImpl β × List β → BlockLogImpl β × List β → Prop where
  | appended {log log' : BlockLogImpl β} {blocks : List β} {block : β}
      (number : format.blockNum block = firstBlockNum + blocks.length)
      (returned : log.append fc format block = .ok log') :
      Step fc format firstBlockNum (log, blocks) (log', blocks ++ [block])
  | reopened {log log' : BlockLogImpl β} {blocks : List β} {count : Nat}
      (returned : openFiles fc format log.blockFile (log.indexFile.take (8 * count)) = .ok log') :
      Step fc format firstBlockNum (log, blocks) (log', blocks)

theorem Holds.step (positive : 0 < firstBlockNum) (width : firstBlockNum < 2 ^ 32)
    {state state' : BlockLogImpl β × List β}
    (holds : Holds fc format maxSupportedVersion gs firstBlockNum state.2 state.1)
    (step : Step fc format firstBlockNum state state') :
    Holds fc format maxSupportedVersion gs firstBlockNum state'.2 state'.1 := by
  cases step with
  | appended number returned => exact holds.append number returned
  | reopened returned =>
    rw [holds.openFiles positive width] at returned
    obtain rfl := Except.ok.inj returned
    exact holds

/-- However blocks were appended to a log and the log reopened, opening its files with the index,
a part of the index or no index gives a log that reads every block back by its number, with the
last block as its head, and with the index that was written, which is also the index that is
built from the log. -/
theorem reads_back_of_run {firstBlock : Option β} {start : BlockLogImpl β}
    {visited : List (BlockLogImpl β × List β)} (positive : 0 < firstBlockNum)
    (width : firstBlockNum < 2 ^ 32) (created : reset fc format gs firstBlock firstBlockNum = .ok start)
    (numbered : ∀ block ∈ firstBlock, format.blockNum block = firstBlockNum)
    (run : Run (Step fc format firstBlockNum) (start, firstBlock.toList) visited (log, blocks))
    (count : Nat) :
    ∃ reopened, openFiles fc format log.blockFile (log.indexFile.take (8 * count)) = .ok reopened ∧
      (∀ block ∈ blocks, reopened.readBlockByNum format (format.blockNum block) = .ok (some block)) ∧
      reopened.head = blocks.getLast? ∧ reopened.indexFile = log.indexFile ∧
      ∀ other, ∃ rebuilt, ({ reopened with indexFile := other } : BlockLogImpl β).constructIndex format =
        .ok rebuilt ∧ rebuilt.indexFile = log.indexFile := by
  have holds : Holds fc format maxSupportedVersion gs firstBlockNum blocks log :=
    @Run.invariant _ _ _ (log, blocks) _
      (fun state => Holds fc format maxSupportedVersion gs firstBlockNum state.2 state.1)
      (holds_reset created numbered) (fun _ _ holds step => holds.step positive width step) run
  refine ⟨log, holds.openFiles positive width count, fun block member => ?_, holds.head, rfl, ?_⟩
  · exact readBlockByNum_of_holds holds member
  · exact fun other => ⟨log, holds.constructIndex other, rfl⟩

end Writing

/-- An empty genesis state, and blocks of one byte, their number. -/
def byteFormat : LogFormat Unit UInt8 where
  genesis :=
    { pack := fun _ => []
      unpack := fun stream => some ((), stream)
      unpack_pack := fun _ _ => rfl }
  block :=
    { pack := fun block => [block]
      unpack := fun stream => stream.head?.map fun byte => (byte, stream.tail)
      unpack_pack := fun _ _ => rfl }
  header block := { previous := unhashedId ((block.toNat + (2 ^ 32 - 1)) % 2 ^ 32) }

/-- A log whose first block has the number zero cannot be opened again. -/
theorem not_reopened_from_zero : ∃ log,
    reset Primitives.zero byteFormat () (some 0) 0 = .ok log ∧ byteFormat.blockNum 0 = 0 ∧
      openFiles Primitives.zero byteFormat log.blockFile log.indexFile = .error ⟨.blockLogException,
        "Block log is malformed, first recorded block number is 0 but must be greater than or equal to 1"⟩ := by
  have created : (reset Primitives.zero byteFormat () (some 0) 0).toOption.isSome := by decide +kernel
  have opened : (reset Primitives.zero byteFormat () (some 0) 0 >>= fun log =>
      openFiles Primitives.zero byteFormat log.blockFile log.indexFile) = .error ⟨.blockLogException,
        "Block log is malformed, first recorded block number is 0 but must be greater than or equal to 1"⟩ := by
    decide +kernel
  cases result : reset Primitives.zero byteFormat () (some 0) 0 with
  | error thrown =>
    rw [result] at created
    cases created
  | ok log =>
    rw [result, ok_bind] at opened
    exact ⟨log, rfl, by decide +kernel, opened⟩

theorem reads_back_two_blocks : ∃ start log,
    reset Primitives.zero byteFormat () (some 1) 1 = .ok start ∧
    start.append Primitives.zero byteFormat 2 = .ok log ∧
    ∃ reopened, openFiles Primitives.zero byteFormat log.blockFile (log.indexFile.take (8 * 1)) =
      .ok reopened ∧ ∀ block ∈ [1, 2],
        reopened.readBlockByNum byteFormat (byteFormat.blockNum block) = .ok (some block) := by
  have returns : (reset Primitives.zero byteFormat () (some 1) 1 >>= fun start =>
      start.append Primitives.zero byteFormat 2).toOption.isSome := by
    decide +kernel
  cases made : reset Primitives.zero byteFormat () (some 1) 1 >>= fun start =>
      start.append Primitives.zero byteFormat 2 with
  | error thrown =>
    rw [made] at returns
    cases returns
  | ok log =>
  obtain ⟨start, created, appended⟩ := of_bind made
  have numbered : ∀ block ∈ some (1 : UInt8), byteFormat.blockNum block = 1 := by
    rintro block ⟨⟩
    decide +kernel
  have number : byteFormat.blockNum 2 = 1 + [(1 : UInt8)].length := by decide +kernel
  have run : Run (Step Primitives.zero byteFormat 1) (start, (some 1).toList) _ (log, [1] ++ [2]) :=
    .snoc .refl (.appended number appended)
  obtain ⟨reopened, opened, read, -⟩ :=
    reads_back_of_run (by decide) (by decide) created numbered run 1
  exact ⟨start, log, created, appended, reopened, opened, read⟩

end BlockLogImpl

end CodexRelay.Chain
