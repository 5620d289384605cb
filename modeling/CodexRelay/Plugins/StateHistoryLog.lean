import CodexRelay.Chain.BlockLog

/-!
Contract: the log of the state history plugin.

Owns:
- `state_history_log` with its two files and its three fields: `write_entry`, `get_entry`,
  `get_pos` and `truncate`;
- what the log holds in every run of `write_entry`, with forks and replays.

Does not own: `open_log` and `open_index`, what the payloads are, and `fc::raw`, which packs a
header into 48 bytes: `HeaderCodec` says what is relied on.

An entry is a header and a payload, and it is followed by its position; the index holds the
positions. The block after the last one has the number zero: `_end_block` wraps.
-/

namespace CodexRelay.Plugins

open Library Chain List

variable {num count : Nat}
open Chain.BlockLogImpl (maxFileSize checkSize orFailure)

/-! ### Headers -/

/-- `N(ship)`. -/
def shipName : Nat := stringToName ['s', 'h', 'i', 'p']

def shipMagic (version : Nat) : Nat := shipName ||| version

def isShip (magic : Nat) : Bool := magic &&& 0xffffffff00000000 = shipName

def getShipVersion (magic : Nat) : Nat := magic % 2 ^ 32

def isShipSupportedVersion (magic : Nat) : Bool := getShipVersion magic = 0

structure StateHistoryLogHeader where
  magic : Nat := shipMagic 0
  blockId : BlockId := 0
  payloadSize : Nat := 0
  magicWidth : magic < 2 ^ 64 := by decide
  idWidth : blockId < 2 ^ 256 := by decide
  sizeWidth : payloadSize < 2 ^ 64 := by decide
deriving DecidableEq

/-- `fc::raw` for headers, with `state_history_log_header_serial_size`. -/
structure HeaderCodec extends Codec StateHistoryLogHeader where
  length_pack : ∀ header, (pack header).length = 48

/-- The magic number, the id and the size. -/
def HeaderCodec.words : HeaderCodec where
  pack header := writeWord 8 header.magic ++ (writeWord 32 header.blockId ++
    writeWord 8 header.payloadSize)
  unpack stream := do
    let (magic, stream) ← takeWord 8 stream
    let (blockId, stream) ← takeWord 32 stream
    let (payloadSize, stream) ← takeWord 8 stream
    if widths : magic < 2 ^ 64 ∧ blockId < 2 ^ 256 ∧ payloadSize < 2 ^ 64 then
      return (⟨magic, blockId, payloadSize, widths.1, widths.2.1, widths.2.2⟩, stream)
    else none
  unpack_pack header rest := by
    have word {n : Nat} (below : n < 2 ^ 64) : n < 256 ^ 8 := below.trans_le (by norm_num)
    have id : header.blockId < 256 ^ 32 := header.idWidth.trans_le (by norm_num)
    simp only [append_assoc, takeWord_writeWord (word header.magicWidth), takeWord_writeWord id,
      takeWord_writeWord (word header.sizeWidth), Option.bind_eq_bind, Option.bind_some]
    rw [dif_pos ⟨header.magicWidth, header.idWidth, header.sizeWidth⟩]
    rfl
  length_pack header := by simp

/-! ### The log -/

/-- `state_history_log`, with the contents of its files. -/
structure StateHistoryLog where
  log : Bytes := []
  index : Bytes := []
  beginBlock : Nat := 0
  endBlock : Nat := 0
  lastBlockId : BlockId := 0

namespace StateHistoryLog

variable (codec : HeaderCodec)

/-- `read_header`, with the stream behind the header. -/
def readHeader (log : Bytes) (pos : Nat) : Checked (StateHistoryLogHeader × Bytes) := do
  let (header, stream) ← orFailure (codec.unpack (log.drop pos))
  eosAssert (isShip header.magic ∧ isShipSupportedVersion header.magic) .pluginException
    "corrupt name.log (0)"
  return (header, stream)

variable (s : StateHistoryLog)

def getPos (blockNum : Nat) : Checked Nat :=
  orFailure (readWord 8 s.index (8 * ((blockNum + 2 ^ 32 - s.beginBlock) % 2 ^ 32)))

/-- `get_entry`: the header and the stream at the payload. -/
def getEntry (blockNum : Nat) : Checked (StateHistoryLogHeader × Bytes) := do
  eosAssert (blockNum ≥ s.beginBlock ∧ blockNum < s.endBlock) .pluginException
    "read non-existing block in name.log"
  let pos ← s.getPos blockNum
  readHeader codec s.log pos

def truncate (blockNum : Nat) : Checked StateHistoryLog :=
  if blockNum ≤ s.beginBlock then
    .ok { s with log := [], index := [], beginBlock := 0, endBlock := 0 }
  else do
    let pos ← s.getPos blockNum
    return { s with
      log := s.log.take pos
      index := s.index.take (8 * (blockNum - s.beginBlock))
      endBlock := blockNum }

/-- The check of `write_entry` that the entry continues the block before it. -/
def checkPrevious (blockNum : Nat) (prevId : BlockId) : Checked Unit :=
  if s.beginBlock ≠ s.endBlock ∧ blockNum > s.beginBlock then
    if blockNum = s.endBlock then
      eosAssert (prevId = s.lastBlockId) .pluginException "missed a fork change in name.log"
    else do
      let (prev, _) ← s.getEntry codec (blockNum - 1)
      eosAssert (prevId = prev.blockId) .pluginException "missed a fork change in name.log"
  else .ok ()

/-- The part of `write_entry` that writes at the end of the files. -/
def appendEntry (header : StateHistoryLogHeader) (payload : Bytes) : Checked StateHistoryLog := do
  let blockNum := BlockHeader.numFromId header.blockId
  let pos := s.log.length
  let written := s.log ++ (codec.pack header ++ payload)
  eosAssert (written.length = pos + 48 + header.payloadSize) .pluginException
    "wrote payload with incorrect size to name.log"
  let log := written ++ writeWord 8 pos
  checkSize log
  return {
    log := log
    index := s.index ++ writeWord 8 pos
    beginBlock := if s.beginBlock = s.endBlock then blockNum else s.beginBlock
    endBlock := (blockNum + 1) % 2 ^ 32
    lastBlockId := header.blockId }

/-- The truncation of `write_entry`, at a block that is there or was before. -/
def truncateTo (blockNum : Nat) : Checked StateHistoryLog :=
  if blockNum < s.endBlock then s.truncate blockNum else .ok s

def writeEntry (header : StateHistoryLogHeader) (prevId : BlockId)
    (payload : Bytes) : Checked StateHistoryLog := do
  let blockNum := BlockHeader.numFromId header.blockId
  eosAssert (s.beginBlock = s.endBlock ∨ blockNum ≤ s.endBlock) .pluginException
    "missed a block in name.log"
  s.checkPrevious codec blockNum prevId
  let kept ← s.truncateTo blockNum
  kept.appendEntry codec header payload

/-! ### Entries -/

/-- What a call of `write_entry` is given: the payload has its declared size, and the header the
magic number of the current version. -/
structure LogEntry where
  header : StateHistoryLogHeader
  prevId : BlockId
  payload : Bytes
  declared : payload.length = header.payloadSize
  current : header.magic = shipMagic 0

namespace LogEntry

def blockNum (entry : LogEntry) : Nat := BlockHeader.numFromId entry.header.blockId

def pack (codec : HeaderCodec) (entry : LogEntry) : Bytes := codec.pack entry.header ++ entry.payload

variable {codec : HeaderCodec}

theorem length_pack (entry : LogEntry) :
    (entry.pack codec).length = 48 + entry.header.payloadSize := by
  rw [pack, length_append, codec.length_pack, entry.declared]

theorem readHeader_append (entry : LogEntry) (front back : Bytes) :
    readHeader codec (front ++ (entry.pack codec ++ back)) front.length =
      .ok (entry.header, entry.payload ++ back) := by
  have supported : isShip entry.header.magic ∧ isShipSupportedVersion entry.header.magic := by
    rw [entry.current]
    decide
  unfold readHeader
  rw [drop_left, pack, append_assoc, codec.unpack_pack, orFailure, ok_bind]
  dsimp only
  rw [eosAssert, if_pos supported]
  rfl

end LogEntry

/-- The block after that of the entry has a number. -/
def HasNext (entry : LogEntry) : Prop := entry.blockNum < 2 ^ 32 - 1

/-! ### What the log holds -/

/-- The files hold these entries, for the blocks from `_begin_block` up to `_end_block`, each of them
on the block before it. -/
structure Files (codec : HeaderCodec) (s : StateHistoryLog) (entries : List LogEntry) : Prop where
  log : s.log = records 0 (entries.map (LogEntry.pack codec))
  index : s.index = wordTable 8 (positions 0 (entries.map (LogEntry.pack codec)))
  size : s.log.length ≤ maxFileSize
  numbers : ∀ i entry, entries[i]? = some entry → entry.blockNum = s.beginBlock + i
  count : s.endBlock = s.beginBlock + entries.length
  linked : entries.IsChain fun older newer => newer.prevId = older.header.blockId

/-- The log holds these entries, and `last_block_id` is that of the last one. -/
structure Contents (codec : HeaderCodec) (s : StateHistoryLog) (entries : List LogEntry) : Prop
    extends Files codec s entries where
  last : ∀ entry ∈ entries.getLast?, s.lastBlockId = entry.header.blockId

section Files

variable {codec : HeaderCodec} {s s' : StateHistoryLog} {entries before after kept : List LogEntry} {entry : LogEntry}

theorem Files.number (files : Files codec s (before ++ entry :: after)) :
    entry.blockNum = s.beginBlock + before.length :=
  files.numbers before.length entry (by simp)

def posAfter (codec : HeaderCodec) (before : List LogEntry) : Nat := (records 0 (before.map (LogEntry.pack codec))).length

theorem records_entries_split (before after : List LogEntry) (entry : LogEntry) :
    ∃ back, records 0 ((before ++ entry :: after).map (LogEntry.pack codec)) =
      records 0 (before.map (LogEntry.pack codec)) ++ (entry.pack codec ++ (writeWord 8 (posAfter codec before) ++ back)) := by
  rw [map_append, map_cons, records_split, Nat.zero_add]
  exact ⟨_, rfl⟩

theorem positions_entries_split (before after : List LogEntry) (entry : LogEntry) :
    ∃ later, positions 0 ((before ++ entry :: after).map (LogEntry.pack codec)) =
      positions 0 (before.map (LogEntry.pack codec)) ++ posAfter codec before :: later := by
  rw [map_append, map_cons, positions_split, Nat.zero_add]
  exact ⟨_, rfl⟩

section

variable (files : Files codec s (before ++ entry :: after))

include files

theorem Files.bound : posAfter codec before < 2 ^ 63 := by
  obtain ⟨back, split⟩ := records_entries_split before after entry
  have size := files.size
  rw [files.log, split] at size
  simp only [length_append, entry.length_pack, maxFileSize] at size
  unfold posAfter
  omega

theorem Files.getPos : s.getPos entry.blockNum = .ok (posAfter codec before) := by
  have narrow : entry.blockNum < 2 ^ 32 := endianReverseU32_lt _
  have offset : (entry.blockNum + 2 ^ 32 - s.beginBlock) % 2 ^ 32 = before.length := by
    rw [files.number] at narrow ⊢
    omega
  have length : (positions 0 (before.map (LogEntry.pack codec))).length = before.length := by simp
  obtain ⟨later, split⟩ := positions_entries_split before after entry
  unfold StateHistoryLog.getPos
  rw [offset, files.index, split, ← length, readWord_wordTable (files.bound.trans (by norm_num))]
  rfl

theorem Files.getEntry :
    ∃ back, s.getEntry codec entry.blockNum = .ok (entry.header, entry.payload ++ back) := by
  have inside : entry.blockNum ≥ s.beginBlock ∧ entry.blockNum < s.endBlock := by
    rw [files.number, files.count, length_append, length_cons]
    omega
  obtain ⟨back, split⟩ := records_entries_split before after entry
  unfold StateHistoryLog.getEntry
  rw [eosAssert, if_pos inside, ok_bind, files.getPos, ok_bind, files.log, split]
  exact ⟨_, entry.readHeader_append _ _⟩

/-- Truncating at a block behind the first one leaves the entries before it. -/
theorem Files.truncate (notFirst : before ≠ []) :
    ∃ t, s.truncate entry.blockNum = .ok t ∧ Files codec t before ∧ t.endBlock = entry.blockNum := by
  have number := files.number
  have some := length_pos_iff.mpr notFirst
  have behind : ¬ entry.blockNum ≤ s.beginBlock := by omega
  have offset : entry.blockNum - s.beginBlock = before.length := by omega
  obtain ⟨back, split⟩ := records_entries_split before after entry
  obtain ⟨later, positionsSplit⟩ := positions_entries_split before after entry
  unfold StateHistoryLog.truncate
  rw [if_neg behind, files.getPos, ok_bind, offset]
  refine ⟨_, rfl, ⟨?_, ?_, ?_, ?_, number, files.linked.left_of_append⟩, rfl⟩
  · dsimp only
    rw [files.log, split, posAfter, take_left]
  · dsimp only
    rw [files.index, take_wordTable, positionsSplit, take_left' (by simp)]
  · dsimp only
    exact (length_take_le' _ _).trans files.size
  · intro i other found
    have inside := (List.getElem?_eq_some_iff.mp found).1
    exact files.numbers i other ((getElem?_append_left inside).trans found)

end

theorem appendEntry_eq_ok (returned : s.appendEntry codec entry.header entry.payload = .ok s') :
    s'.log.length ≤ maxFileSize ∧ s' = {
      log := s.log ++ (entry.pack codec ++ writeWord 8 s.log.length)
      index := s.index ++ writeWord 8 s.log.length
      beginBlock := if s.beginBlock = s.endBlock then entry.blockNum else s.beginBlock
      endBlock := (entry.blockNum + 1) % 2 ^ 32
      lastBlockId := entry.header.blockId } := by
  unfold appendEntry at returned
  obtain ⟨_, -, returned⟩ := of_bind returned
  obtain ⟨_, fits, returned⟩ := of_bind returned
  obtain rfl := Except.ok.inj returned
  refine ⟨eosAssert_eq_ok.mp fits, ?_⟩
  rw [append_assoc]
  rfl

theorem Files.append (files : Files codec s kept) (numbered : HasNext entry)
    (next : kept = [] ∨ entry.blockNum = s.endBlock)
    (continues : ∀ older ∈ kept.getLast?, entry.prevId = older.header.blockId)
    (returned : s.appendEntry codec entry.header entry.payload = .ok s') :
    Contents codec s' (kept ++ [entry]) := by
  obtain ⟨size, rfl⟩ := appendEntry_eq_ok returned
  have start : (if s.beginBlock = s.endBlock then entry.blockNum else s.beginBlock) + kept.length =
      entry.blockNum := by
    have count := files.count
    rcases next with rfl | atEnd
    · rw [length_nil, Nat.add_zero] at count
      rw [length_nil, Nat.add_zero, if_pos count.symm]
    · split_ifs with empty
      · omega
      · omega
  have length : s.log.length = posAfter codec kept := by rw [files.log, posAfter]
  refine ⟨⟨?_, ?_, size, ?_, ?_, ?_⟩, ?_⟩
  · dsimp only
    rw [length, posAfter, files.log, map_append, map_singleton, records_split, Nat.zero_add]
    simp only [records, append_nil]
  · dsimp only
    rw [length, posAfter, files.index, map_append, map_singleton, positions_split,
      Nat.zero_add, wordTable_append]
    simp only [positions, wordTable, flatMap_cons, flatMap_nil, append_nil]
  · intro i other found
    dsimp only
    rcases Nat.lt_or_ge i kept.length with inside | outside
    · rw [getElem?_append_left inside] at found
      have notEmpty : s.beginBlock ≠ s.endBlock := by
        rw [files.count]
        omega
      rw [if_neg notEmpty]
      exact files.numbers i other found
    · rw [getElem?_append_right outside] at found
      obtain ⟨atEnd, same⟩ := List.getElem?_eq_some_iff.mp found
      rw [length_singleton, Nat.lt_one_iff] at atEnd
      rw [← same, getElem_singleton, show i = kept.length by omega, start]
  · dsimp only
    rw [length_append, length_singleton, ← Nat.add_assoc, start]
    unfold HasNext at numbered
    exact Nat.mod_eq_of_lt (by omega)
  · refine isChain_append.mpr ⟨files.linked, isChain_singleton _, ?_⟩
    rintro older isLast newer ⟨⟩
    exact continues older isLast
  · intro other isLast
    rw [getLast?_concat] at isLast
    obtain rfl := Option.some.inj isLast
    rfl

/-- What `write_entry` leaves when it truncates at a block, and what was checked about it. -/
theorem Contents.truncated (contents : Contents codec s entries) {kept : StateHistoryLog}
    (before : entry.blockNum < s.endBlock)
    (checked : s.checkPrevious codec entry.blockNum entry.prevId = .ok ())
    (returned : s.truncate entry.blockNum = .ok kept) :
    Files codec kept (entries.take (entry.blockNum - s.beginBlock)) ∧
      (entries.take (entry.blockNum - s.beginBlock) = [] ∨ entry.blockNum = kept.endBlock) ∧
      ∀ older ∈ (entries.take (entry.blockNum - s.beginBlock)).getLast?,
        entry.prevId = older.header.blockId := by
  have count := contents.count
  by_cases first : entry.blockNum ≤ s.beginBlock
  · unfold StateHistoryLog.truncate at returned
    rw [if_pos first] at returned
    obtain rfl := Except.ok.inj returned
    rw [Nat.sub_eq_zero_of_le first, take_zero]
    exact ⟨⟨rfl, rfl, Nat.zero_le _, by simp, rfl, .nil⟩, .inl rfl, by simp⟩
  · obtain ⟨x, found⟩ : ∃ x, entries[entry.blockNum - s.beginBlock]? = some x :=
      ⟨_, getElem?_eq_getElem (by omega)⟩
    have number : x.blockNum = entry.blockNum := by
      rw [contents.numbers _ x found]
      omega
    obtain ⟨inside, same⟩ := List.getElem?_eq_some_iff.mp found
    have split : entries = entries.take (entry.blockNum - s.beginBlock) ++
        x :: entries.drop (entry.blockNum - s.beginBlock + 1) := by
      rw [← same, getElem_cons_drop, take_append_drop]
    have notFirst : entries.take (entry.blockNum - s.beginBlock) ≠ [] := by
      intro none
      have := congrArg List.length none
      rw [length_take_of_le inside.le, length_nil] at this
      omega
    have whole : Files codec s _ := split ▸ contents.toFiles
    obtain ⟨t, truncated, files, ends⟩ := whole.truncate notFirst
    rw [number] at truncated ends
    obtain rfl := Except.ok.inj (returned.symm.trans truncated)
    refine ⟨files, .inr ends.symm, fun older isLast => ?_⟩
    obtain ⟨front, part⟩ := getLast?_eq_some_iff.mp isLast
    have length := congrArg List.length part
    rw [length_take_of_le inside.le, length_append, length_singleton] at length
    rw [part, append_assoc, singleton_append] at whole
    have before : entry.blockNum - 1 = older.blockNum := by
      rw [whole.number]
      omega
    obtain ⟨back, read⟩ := whole.getEntry
    unfold checkPrevious at checked
    rw [if_pos ⟨by omega, by omega⟩, if_neg (by omega), before, read, ok_bind] at checked
    exact eosAssert_eq_ok.mp checked

/-- An accepted call keeps the entries of the blocks before its own and adds one. -/
theorem Contents.writeEntry (contents : Contents codec s entries) (numbered : HasNext entry)
    (returned : s.writeEntry codec entry.header entry.prevId entry.payload = .ok s') :
    Contents codec s' (entries.take (entry.blockNum - s.beginBlock) ++ [entry]) := by
  unfold StateHistoryLog.writeEntry at returned
  obtain ⟨_, inOrder, returned⟩ := of_bind returned
  obtain ⟨_, checked, returned⟩ := of_bind returned
  obtain ⟨kept, ready, returned⟩ := of_bind returned
  have inOrder := eosAssert_eq_ok.mp inOrder
  change s.checkPrevious codec entry.blockNum entry.prevId = _ at checked
  change s.beginBlock = s.endBlock ∨ entry.blockNum ≤ s.endBlock at inOrder
  change s.truncateTo entry.blockNum = _ at ready
  unfold truncateTo at ready
  have count := contents.count
  split_ifs at ready with before
  · obtain ⟨files, next, continues⟩ := contents.truncated before checked ready
    exact files.append numbered next continues returned
  · obtain rfl := Except.ok.inj ready
    have whole : entries.take (entry.blockNum - s.beginBlock) = entries := by
      apply take_of_length_le
      omega
    rw [whole]
    by_cases empty : s.beginBlock = s.endBlock
    · have none : entries = [] := length_eq_zero_iff.mp (by omega)
      refine contents.append numbered (.inl none) ?_ returned
      intro older isLast
      rw [none] at isLast
      cases isLast
    · have atEnd : entry.blockNum = s.endBlock := by omega
      refine contents.append numbered (.inr atEnd) ?_ returned
      intro older isLast
      unfold checkPrevious at checked
      rw [if_pos ⟨empty, by omega⟩, if_pos atEnd] at checked
      rw [eosAssert_eq_ok.mp checked]
      exact contents.last older isLast

/-! ### Runs -/

/-- An accepted call, with the calls that were accepted so far, the newest first. -/
inductive Step (codec : HeaderCodec) (allowed : LogEntry → Prop) :
    StateHistoryLog × List LogEntry → StateHistoryLog × List LogEntry → Prop where
  | written {s s' : StateHistoryLog} {accepted : List LogEntry} {entry : LogEntry}
      (returned : s.writeEntry codec entry.header entry.prevId entry.payload = .ok s')
      (isAllowed : allowed entry) : Step codec allowed (s, accepted) (s', entry :: accepted)

def latest (accepted : List LogEntry) (blockNum : Nat) : Option LogEntry :=
  accepted.find? (·.blockNum = blockNum)

structure Current (codec : HeaderCodec) (state : StateHistoryLog × List LogEntry) (entries : List LogEntry) : Prop
    extends Contents codec state.1 entries where
  recent : ∀ entry ∈ entries, latest state.2 entry.blockNum = some entry

theorem current_empty : Current codec ({}, []) [] where
  log := rfl
  index := rfl
  size := Nat.zero_le _
  numbers := by simp
  count := rfl
  linked := .nil
  last := by simp
  recent := by simp

theorem Current.step {state state' : StateHistoryLog × List LogEntry} (current : Current codec state entries)
    (step : Step codec HasNext state state') : ∃ entries', Current codec state' entries' := by
  cases step with
  | @written s s' accepted entry returned numbered =>
    refine ⟨_, current.toContents.writeEntry numbered returned, fun other member => ?_⟩
    rcases mem_append.mp member with older | newest
    · obtain ⟨i, found⟩ := mem_iff_getElem?.mp older
      have inside := (List.getElem?_eq_some_iff.mp found).1
      dsimp only at inside found
      rw [length_take] at inside
      rw [getElem?_take_of_lt (by omega)] at found
      have number : other.blockNum = s.beginBlock + i := current.numbers i other found
      have differs : entry.blockNum ≠ other.blockNum := by omega
      rw [latest, find?_cons_of_neg (by simpa using differs)]
      exact current.recent other (mem_of_mem_take older)
    · obtain rfl := mem_singleton.mp newest
      exact find?_cons_of_pos (by simp)

/-- In every state of a run in which no entry is for the last block number, the log holds one
entry for each block from `_begin_block` up to `_end_block`: the one most recently accepted, which
`get_entry` returns, and which continues the entry before it. -/
theorem holds_current_entries_of_run {visited : List (StateHistoryLog × List LogEntry)}
    {s : StateHistoryLog} {accepted : List LogEntry} (run : Run (Step codec HasNext) ({}, []) visited (s, accepted)) :
    ∃ entries : List LogEntry, s.log = records 0 (entries.map (LogEntry.pack codec)) ∧
      entries.map LogEntry.blockNum = List.range' s.beginBlock (s.endBlock - s.beginBlock) ∧
      (∀ entry ∈ entries, latest accepted entry.blockNum = some entry ∧
        ∃ back, s.getEntry codec entry.blockNum = .ok (entry.header, entry.payload ++ back)) ∧
      entries.IsChain fun older newer => newer.prevId = older.header.blockId := by
  obtain ⟨entries, current⟩ : ∃ entries, Current codec (s, accepted) entries :=
    @Run.invariant _ _ _ (s, accepted) _ (fun state => ∃ entries, Current codec state entries)
      ⟨[], current_empty⟩ (fun _ _ ⟨_, current⟩ step => current.step step) run
  refine ⟨entries, current.log, ?_, fun entry member => ?_, current.linked⟩
  · have count : s.endBlock = s.beginBlock + entries.length := current.count
    apply ext_getElem
    · rw [length_map, length_range', count, Nat.add_sub_cancel_left]
    · intro i inside _
      rw [length_map] at inside
      rw [getElem_map, getElem_range', one_mul]
      exact current.numbers i _ (getElem?_eq_getElem inside)
  · obtain ⟨before, after, rfl⟩ := append_of_mem member
    exact ⟨current.recent entry member, current.toFiles.getEntry⟩

/-- An entry at the end of the files is accepted as long as the file can hold it. -/
theorem writeEntry_returns (notBefore : s.endBlock ≤ entry.blockNum)
    (accepts : s.beginBlock = s.endBlock ∨
      entry.blockNum = s.endBlock ∧ s.beginBlock < s.endBlock ∧ entry.prevId = s.lastBlockId)
    (room : s.log.length + ((entry.pack codec).length + 8) ≤ maxFileSize) :
    s.writeEntry codec entry.header entry.prevId entry.payload = .ok {
      log := s.log ++ (entry.pack codec ++ writeWord 8 s.log.length)
      index := s.index ++ writeWord 8 s.log.length
      beginBlock := if s.beginBlock = s.endBlock then entry.blockNum else s.beginBlock
      endBlock := (entry.blockNum + 1) % 2 ^ 32
      lastBlockId := entry.header.blockId } := by
  have inOrder : s.beginBlock = s.endBlock ∨ entry.blockNum ≤ s.endBlock :=
    accepts.imp_right fun atEnd => atEnd.1.le
  have checked : s.checkPrevious codec entry.blockNum entry.prevId = .ok () := by
    unfold checkPrevious
    rcases accepts with empty | ⟨atEnd, notEmpty, continues⟩
    · rw [if_neg (by simp [empty])]
    · rw [if_pos ⟨notEmpty.ne, by omega⟩, if_pos atEnd]
      exact eosAssert_eq_ok.mpr continues
  have untouched : s.truncateTo entry.blockNum = .ok s := if_neg (not_lt.mpr notBefore)
  have declared : (s.log ++ (codec.pack entry.header ++ entry.payload)).length =
      s.log.length + 48 + entry.header.payloadSize := by
    rw [length_append, ← LogEntry.pack, entry.length_pack, Nat.add_assoc]
  have fits : (s.log ++ (codec.pack entry.header ++ entry.payload) ++ writeWord 8 s.log.length).length ≤
      maxFileSize := by
    rw [← LogEntry.pack, length_append, length_append, length_writeWord]
    omega
  refine sequence_eq_ok.mpr ⟨(), eosAssert_eq_ok.mpr inOrder, ?_⟩
  refine sequence_eq_ok.mpr ⟨(), checked, ?_⟩
  refine sequence_eq_ok.mpr ⟨s, untouched, ?_⟩
  refine sequence_eq_ok.mpr ⟨(), eosAssert_eq_ok.mpr declared, ?_⟩
  refine sequence_eq_ok.mpr ⟨(), eosAssert_eq_ok.mpr fits, ?_⟩
  rw [append_assoc]
  rfl

end Files

/-! ### Samples -/

/-- An entry without a payload for a block whose hash is zero. -/
def plainEntry (num prevNum : Nat) : LogEntry where
  header :=
    { blockId := unhashedId num
      idWidth := by
        have reversed := endianReverseU32_lt num
        show (endianReverseU32 num * 2 ^ 192 : Nat) < 2 ^ 256
        omega }
  prevId := unhashedId prevNum
  payload := []
  declared := rfl
  current := rfl

theorem blockNum_plainEntry {prevNum : Nat} (width : num < 2 ^ 32) :
    (plainEntry num prevNum).blockNum = num :=
  numFromId_unhashedId width

/-- Another entry for block 6, on the same block 5. -/
def forkEntry : LogEntry where
  header := { blockId := unhashedId 6 + 1, payloadSize := 1 }
  prevId := unhashedId 5
  payload := [9]
  declared := rfl
  current := rfl

/-- Blocks 5 and 6 are written, and another block 6 after a switch of forks. -/
def forkedLog : Checked (StateHistoryLog × StateHistoryLog × StateHistoryLog) := do
  let first ← writeEntry .words {} (plainEntry 5 4).header (plainEntry 5 4).prevId []
  let second ← first.writeEntry .words (plainEntry 6 5).header (plainEntry 6 5).prevId []
  let third ← second.writeEntry .words forkEntry.header forkEntry.prevId forkEntry.payload
  return (first, second, third)

theorem holds_entries_after_fork : ∃ visited s,
    Run (Step .words HasNext) ({}, []) visited (s, [forkEntry, plainEntry 6 5, plainEntry 5 4]) ∧
      (s.beginBlock = 5 ∧ s.endBlock = 7 ∧ s.log.length = 113) ∧
      ∃ entries : List LogEntry, s.log = records 0 (entries.map (LogEntry.pack .words)) ∧
        entries.map LogEntry.blockNum = List.range' s.beginBlock (s.endBlock - s.beginBlock) ∧
        (∀ entry ∈ entries,
          latest [forkEntry, plainEntry 6 5, plainEntry 5 4] entry.blockNum = some entry ∧
          ∃ back, s.getEntry .words entry.blockNum = .ok (entry.header, entry.payload ++ back)) ∧
        entries.IsChain fun older newer => newer.prevId = older.header.blockId := by
  obtain ⟨⟨s₁, s₂, s₃⟩, ran, fields⟩ := @exists_eq_ok _ forkedLog (fun logs =>
    logs.2.2.beginBlock = 5 ∧ logs.2.2.endBlock = 7 ∧ logs.2.2.log.length = 113) _
    (by decide +kernel)
  obtain ⟨_, first, ran⟩ := of_bind ran
  obtain ⟨_, second, ran⟩ := of_bind ran
  obtain ⟨_, third, ran⟩ := of_bind ran
  cases ran
  have run : Run (Step .words HasNext) ({}, []) _ (s₃, [forkEntry, plainEntry 6 5, plainEntry 5 4]) :=
    ((Run.refl.snoc (.written first (by unfold HasNext; decide +kernel))).snoc
      (.written second (by unfold HasNext; decide +kernel))).snoc
      (.written third (by unfold HasNext; decide +kernel))
  exact ⟨_, s₃, run, fields, holds_current_entries_of_run run⟩

theorem length_pack_plainEntry (num prevNum : Nat) :
    ((plainEntry num prevNum).pack .words).length = 48 :=
  (plainEntry num prevNum).length_pack

/-- The log has an entry for every block from 0 to `num`. -/
structure FromZero (s : StateHistoryLog) (num : Nat) : Prop where
  begins : s.beginBlock = 0
  ends : s.endBlock = (num + 1) % 2 ^ 32
  last : s.lastBlockId = unhashedId num
  size : s.log.length = 56 * (num + 1)
  log : (plainEntry 0 0).pack .words <+: s.log
  index : writeWord 8 0 <+: s.index

/-- The entries can be written one after the other. -/
theorem exists_run_fromZero (width : num < 2 ^ 32) :
    ∃ visited s accepted, Run (Step .words fun _ => True) ({}, []) visited (s, accepted) ∧
      FromZero s num := by
  induction num with
  | zero =>
    have returned := @writeEntry_returns .words {} (plainEntry 0 0) (Nat.zero_le _) (.inl rfl)
      (show 0 + (((plainEntry 0 0).pack .words).length + 8) ≤ maxFileSize by
        rw [length_pack_plainEntry, maxFileSize]
        norm_num)
    rw [if_pos rfl, blockNum_plainEntry width] at returned
    refine ⟨_, _, _, .snoc .refl (.written returned trivial), rfl, rfl, rfl, ?_, ⟨_, rfl⟩,
      ⟨[], append_nil _⟩⟩
    simp only [nil_append, length_append, length_pack_plainEntry, length_writeWord]
  | succ num ih =>
    obtain ⟨visited, s, accepted, run, written⟩ := ih (by omega)
    have number : (plainEntry (num + 1) num).blockNum = num + 1 := blockNum_plainEntry width
    have ends : s.endBlock = num + 1 := by rw [written.ends, Nat.mod_eq_of_lt width]
    have notEmpty : s.beginBlock < s.endBlock := by rw [written.begins, ends]; omega
    have returned := writeEntry_returns (by rw [number, ends])
      (.inr ⟨number.trans ends.symm, notEmpty, written.last.symm⟩)
      (show s.log.length + (((plainEntry (num + 1) num).pack .words).length + 8) ≤ maxFileSize by
        rw [written.size, length_pack_plainEntry, maxFileSize]
        omega)
    rw [if_neg notEmpty.ne, number] at returned
    refine ⟨_, _, _, run.snoc (.written returned trivial), written.begins, rfl, rfl, ?_,
      written.log.trans (prefix_append _ _), written.index.trans (prefix_append _ _)⟩
    simp only [length_append, length_pack_plainEntry, length_writeWord, written.size]
    omega

theorem getEntry_front {s : StateHistoryLog} {logBack indexBack : Bytes}
    (begins : s.beginBlock = num) (ends : s.endBlock = num + 1)
    (log : s.log = (plainEntry 0 0).pack .words ++ logBack) (index : s.index = writeWord 8 0 ++ indexBack) :
    s.getEntry .words num = .ok ((plainEntry 0 0).header, logBack) := by
  have inside : num ≥ s.beginBlock ∧ num < s.endBlock := by omega
  have offset : (num + 2 ^ 32 - s.beginBlock) % 2 ^ 32 = 0 := by omega
  have pos : readWord 8 s.index 0 = some 0 := by
    rw [index]
    exact readWord_append (by norm_num) [] indexBack
  unfold getEntry getPos
  rw [eosAssert, if_pos inside, ok_bind, offset, Nat.mul_zero, pos, orFailure, ok_bind, log]
  exact (plainEntry 0 0).readHeader_append [] logBack

/-- After an entry for every block number the log passes for empty. The next entry is then behind
all others, and `get_entry` returns the first one in its place. -/
theorem getEntry_after_wrap : ∃ visited s accepted entry header stream,
    Run (Step .words fun _ => True) ({}, []) visited (s, accepted) ∧
      s.beginBlock ≤ 7 ∧ 7 < s.endBlock ∧ latest accepted 7 = some entry ∧
      s.getEntry .words 7 = .ok (header, stream) ∧ header ≠ entry.header := by
  obtain ⟨num, last⟩ : ∃ num, num + 1 = 2 ^ 32 := ⟨2 ^ 32 - 1, by norm_num⟩
  obtain ⟨visited, s, accepted, run, written⟩ := exists_run_fromZero (show num < 2 ^ 32 by omega)
  have ends : s.endBlock = 0 := by rw [written.ends, last, Nat.mod_self]
  have empty : s.beginBlock = s.endBlock := written.begins.trans ends.symm
  have seven : (plainEntry 7 6).blockNum = 7 := blockNum_plainEntry (by norm_num)
  have returned := writeEntry_returns (by rw [ends]; exact Nat.zero_le _) (.inl empty)
    (show s.log.length + (((plainEntry 7 6).pack .words).length + 8) ≤ maxFileSize by
      rw [written.size, last, length_pack_plainEntry, maxFileSize]
      norm_num)
  obtain ⟨logBack, log⟩ := written.log
  obtain ⟨indexBack, index⟩ := written.index
  rw [if_pos empty, seven, ← log, ← index, append_assoc, append_assoc] at returned
  refine ⟨_, _, _, plainEntry 7 6, _, _, run.snoc (.written returned trivial), le_rfl, ?_, ?_,
    getEntry_front rfl ?_ rfl rfl, ?_⟩
  · norm_num
  · exact find?_cons_of_pos (by simpa using seven)
  · norm_num
  · decide

end StateHistoryLog

end CodexRelay.Plugins
