import CodexRelay.Library.OrderStatistic
import CodexRelay.Chain.IncrementalMerkle

/-!
Contract: the transition from one block header state to the next, as
`block_header_state.cpp` computes it.

Owns:
- `block_header_state`, `pending_block_header_state` and their common part;
- `next`, `make_block_header`, both `finish_next` overloads and `sign`;
- the genesis header state of `controller_impl::initialize_blockchain_state`.

Does not own: the fork database and the controller, which decide which header
states exist and which are applied.

Block numbers and schedule versions are counters of 32 bits, which wrap: a slot
can be used again, so that nothing bounds the length of a branch. The 8-bit
confirmation counters wrap as well.
-/

namespace CodexRelay.Chain

open Library

def producerRepetitions : Nat := 3

def maxProducers : Nat := 21

def maximumTrackedDposConfirmations : Nat := 1024

/-- `BLOCK_INTERVAL_MS` of the build. -/
def blockIntervalMs : Nat := 1000

def blockTimestampEpoch : Nat := 946684800000

/-- `block_timestamp::operator time_point`, in microseconds. -/
def slotTime (slot : Nat) : Nat := (slot * blockIntervalMs + blockTimestampEpoch) * 1000

def succU32 (counter : Nat) : Nat := (counter + 1) % 2 ^ 32

def subU32 (minuend subtrahend : Nat) : Nat :=
  if subtrahend ≤ minuend then minuend - subtrahend else minuend + 2 ^ 32 - subtrahend

structure BlockHeaderStateCommon where
  blockNum : Nat := 0
  dposProposedIrreversibleBlocknum : Nat := 0
  dposIrreversibleBlocknum : Nat := 0
  activeSchedule : ProducerSchedule := {}
  blockrootMerkle : IncrementalMerkle := {}
  producerToLastProduced : ProducerMap := ∅
  producerToLastImpliedIrb : ProducerMap := ∅
  blockSigningKey : PublicKey := 0
  confirmCount : List Nat := []

structure PendingBlockHeaderState extends BlockHeaderStateCommon where
  prevActivatedProtocolFeatures : Finset Digest := ∅
  prevPendingSchedule : ScheduleInfo := {}
  wasPendingPromoted : Bool := false
  previous : BlockId := 0
  producer : AccountName := 0
  timestamp : Nat := 0
  activeScheduleVersion : Nat := 0
  confirmed : Nat := 1

/-- `block_header_state`. An extracted header extension is its list of protocol
feature digests, the only extension there is. -/
structure BlockHeaderState extends BlockHeaderStateCommon where
  id : BlockId := 0
  header : SignedBlockHeader := {}
  pendingSchedule : ScheduleInfo := {}
  activatedProtocolFeatures : Finset Digest := ∅
  headerExts : List (List Digest) := []

/-! ### `next` -/

namespace BlockHeaderState

variable (state : BlockHeaderState)

/-- `get_scheduled_producer`; an empty schedule divides by zero. -/
def getScheduledProducer (slot : Nat) : Checked ProducerKey :=
  let producers := state.activeSchedule.producers
  let index := slot % (producers.length * producerRepetitions) / producerRepetitions
  match producers[index]? with
  | some key => .ok key
  | none => .error ⟨.fault, "get_scheduled_producer on an empty schedule"⟩

/-- `calc_dpos_last_irreversible`: "2/3 must be greater, so if I go 1/3 into the
list sorted from low to high, then 2/3 are greater". -/
def calcDposLastIrreversible (producerOfNextBlock : AccountName) : Nat :=
  let blocknums := overriddenValues state.producerToLastImpliedIrb.entries producerOfNextBlock
    state.dposProposedIrreversibleBlocknum
  if blocknums.length = 0 then 0
  else (nthElement ((blocknums.length - 1) / 3) blocknums).getD 0

/-- The slot of the next block: the given one, which has to lie in the future,
or the one after the state's own when none is given. -/
def nextSlot (slot : Nat) : Checked Nat :=
  if slot ≠ 0 then do
    eosAssert (state.header.timestamp < slot) .blockValidateException
      "next block must be in the future"
    return slot
  else
    return (state.header.timestamp + 1) % 2 ^ 32

def checkDoubleConfirm (producer : AccountName)
    (numPrevBlocksToConfirm : Nat) : Checked Unit :=
  match state.producerToLastProduced.lookup producer with
  | some lastProduced =>
    eosAssert (lastProduced < subU32 (succU32 state.blockNum) numPrevBlocksToConfirm)
      .producerDoubleConfirm "producer ${prod} double-confirming known range"
  | none => .ok ()

/-- Confirmations the block after `state` needs: the schedule of `state` signs it. -/
def requiredConfs : Nat :=
  state.activeSchedule.producers.length * 2 / 3 + 1

/-- `confirm_count` grown by the entry of the new block. A full vector loses its
oldest entry. -/
def grownConfirmCount : List Nat :=
  (if state.confirmCount.length < maximumTrackedDposConfirmations then state.confirmCount
    else state.confirmCount.drop 1) ++ [state.requiredConfs % 2 ^ 8]

end BlockHeaderState

def decrementU8 (counter : Nat) : Nat := (counter + 2 ^ 8 - 1) % 2 ^ 8

/-- The confirmation loop of `next`. It decrements `blocksToConfirm` entries of
`confirmCount`, from index `remaining - 1` downwards, and stops at the first one
that becomes zero, which it returns. -/
def confirmBlocks (confirmCount : List Nat) :
    (remaining blocksToConfirm : Nat) → List Nat × Option Nat
  | 0, _ => (confirmCount, none)
  | _ + 1, 0 => (confirmCount, none)
  | index + 1, blocksToConfirm + 1 =>
    let confirmCount := confirmCount.modify index decrementU8
    if confirmCount[index]? = some 0 then (confirmCount, some index)
    else confirmBlocks confirmCount index blocksToConfirm

/-- Both producer maps are rebuilt by one loop when a schedule is promoted: the
producer of the block gets `own`, a producer that had an entry keeps it, and any
other gets `fallback`. -/
def rebuildProducerMap (producers : List ProducerKey) (scheduled : AccountName) (own : Nat)
    (existing : ProducerMap) (fallback : Nat) : ProducerMap :=
  producers.foldl (fun rebuilt pro =>
    rebuilt.insert pro.producerName
      (if pro.producerName = scheduled then own
        else (existing.lookup pro.producerName).getD fallback)) ∅

namespace BlockHeaderState

/-- Whether `next` promotes the pending schedule, given the new LIB. -/
def promotesPending (state : BlockHeaderState) (lib : Nat) : Bool :=
  state.pendingSchedule.schedule.producers.length ≠ 0 && state.pendingSchedule.scheduleLibNum ≤ lib

/-- The part of `next` after its checks. -/
def buildPending (fc : Primitives) (state : BlockHeaderState) (slot : Nat) (prokey : ProducerKey)
    (numPrevBlocksToConfirm : Nat) : PendingBlockHeaderState :=
  let blockNum := succU32 state.blockNum
  let grown := state.grownConfirmCount
  let confirmation := confirmBlocks grown grown.length (numPrevBlocksToConfirm + 1)
  let lib := state.calcDposLastIrreversible prokey.producerName
  let promoted := state.promotesPending lib
  let pending := state.pendingSchedule.schedule
  { blockNum
    dposProposedIrreversibleBlocknum := match confirmation.2 with
      | some index => subU32 blockNum (grown.length - 1 - index)
      | none => state.dposProposedIrreversibleBlocknum
    dposIrreversibleBlocknum := lib
    activeSchedule := if promoted then pending else state.activeSchedule
    blockrootMerkle := state.blockrootMerkle.append fc.hashCanonicalPair state.id
    producerToLastProduced :=
      (if promoted then
        rebuildProducerMap pending.producers prokey.producerName blockNum
          state.producerToLastProduced lib
      else state.producerToLastProduced).insert prokey.producerName blockNum
    producerToLastImpliedIrb :=
      if promoted then
        rebuildProducerMap pending.producers prokey.producerName
          state.dposProposedIrreversibleBlocknum state.producerToLastImpliedIrb lib
      else
        state.producerToLastImpliedIrb.insert prokey.producerName
          state.dposProposedIrreversibleBlocknum
    blockSigningKey := prokey.blockSigningKey
    -- Entries up to the one that became zero are dropped; the block it stands
    -- for is the new proposed irreversible block.
    confirmCount := match confirmation.2 with
      | some index => confirmation.1.drop (index + 1)
      | none => confirmation.1
    prevActivatedProtocolFeatures := state.activatedProtocolFeatures
    prevPendingSchedule := state.pendingSchedule
    wasPendingPromoted := promoted
    previous := state.id
    producer := prokey.producerName
    timestamp := slot
    activeScheduleVersion := state.activeSchedule.version
    confirmed := numPrevBlocksToConfirm }

def next (fc : Primitives) (state : BlockHeaderState) (slot numPrevBlocksToConfirm : Nat) :
    Checked PendingBlockHeaderState := do
  let slot ← state.nextSlot slot
  let prokey ← state.getScheduledProducer slot
  state.checkDoubleConfirm prokey.producerName numPrevBlocksToConfirm
  return state.buildPending fc slot prokey numPrevBlocksToConfirm

end BlockHeaderState

/-! ### Header extensions -/

/-- `protocol_feature_activation::reflector_init`. -/
def checkFeatureActivation (features : List Digest) : Checked Unit := do
  eosAssert (0 < features.length) .illFormedProtocolFeatureActivation
    "Protocol feature activation extension must have at least one protocol feature digest"
  eosAssert features.Nodup .illFormedProtocolFeatureActivation
    "Protocol feature digest ${d} was repeated in the protocol feature activation extension"

/-- The loop of `validate_and_extract_header_extensions`; `lowerBound` is the
previous extension's id and `first` holds in the first round. -/
def extractExtensions (fc : Primitives) :
    (first : Bool) → (lowerBound : Nat) → List (Nat × List UInt8) → Checked (List (List Digest))
  | _, _, [] => .ok []
  | first, lowerBound, (extensionId, bytes) :: rest => do
      eosAssert (lowerBound ≤ extensionId) .invalidBlockHeaderExtension
        "Block header extensions are not in the correct order (ascending id types required)"
      eosAssert (extensionId = 0) .invalidBlockHeaderExtension
        "Block header extension with id type ${id} is not supported"
      let features ← match fc.unpackFeatures bytes with
        | some features => .ok features
        | none => .error ⟨.unpackException, "unpack of a protocol feature activation"⟩
      checkFeatureActivation features
      eosAssert (first ∨ lowerBound < extensionId) .invalidBlockHeaderExtension
        "Block header extension with id type ${id} is not allowed to repeat"
      let others ← extractExtensions fc false extensionId rest
      return features :: others

def BlockHeader.validateAndExtractHeaderExtensions (fc : Primitives) (header : BlockHeader) :
    Checked (List (List Digest)) :=
  extractExtensions fc true 0 header.headerExtensions

/-- The constructor of `protocol_feature_activation_set`, which rejects features
that are active already. -/
def activateFeatures (active : Finset Digest) (features : List Digest) :
    Checked (Finset Digest) := do
  let union := active ∪ features.toFinset
  eosAssert (union.card = active.card + features.length) .invalidBlockHeaderExtension
    "duplication of protocol feature digests"
  return union

/-! ### `make_block_header` and `finish_next` -/

abbrev FeatureValidator := Nat → Finset Digest → List Digest → Checked Unit

namespace PendingBlockHeaderState

def makeBlockHeader (fc : Primitives) (pending : PendingBlockHeaderState)
    (transactionMroot actionMroot : Digest) (newProducers : Option ProducerSchedule)
    (newProtocolFeatureActivations : List Digest) : SignedBlockHeader where
  timestamp := pending.timestamp
  producer := pending.producer
  confirmed := pending.confirmed
  previous := pending.previous
  transactionMroot
  actionMroot
  scheduleVersion := pending.activeScheduleVersion
  newProducers
  headerExtensions :=
    if 0 < newProtocolFeatureActivations.length then
      [(0, fc.packFeatures newProtocolFeatureActivations)]
    else []

/-- The checks of `_finish_next` on the header and on its new producers. -/
def checkHeader (pending : PendingBlockHeaderState) (h : SignedBlockHeader) : Checked Unit := do
  eosAssert (h.timestamp = pending.timestamp) .blockValidateException "timestamp mismatch"
  eosAssert (h.previous = pending.previous) .unlinkableBlockException "previous mismatch"
  eosAssert (h.confirmed = pending.confirmed) .blockValidateException "confirmed mismatch"
  eosAssert (h.producer = pending.producer) .wrongProducer "wrong producer specified"
  eosAssert (h.scheduleVersion = pending.activeScheduleVersion) .producerScheduleException
    "schedule_version in signed block is corrupted"
  match h.newProducers with
  | none => return ()
  | some newProducers => do
      eosAssert (pending.wasPendingPromoted = false) .producerScheduleException
        "cannot set pending producer schedule in the same block in which pending was promoted to active"
      eosAssert (newProducers.version = succU32 pending.activeSchedule.version)
        .producerScheduleException "wrong producer schedule version specified"
      eosAssert (pending.prevPendingSchedule.schedule.producers.length = 0)
        .producerScheduleException "cannot set new pending producers until last pending is confirmed"

/-- The protocol features that are active after a block with these extensions. -/
def nextActivatedFeatures (pending : PendingBlockHeaderState) (validator : FeatureValidator)
    (extensions : List (List Digest)) : Checked (Finset Digest) :=
  match extensions with
  | [] => .ok pending.prevActivatedProtocolFeatures
  | features :: _ => do
      validator pending.timestamp pending.prevActivatedProtocolFeatures features
      activateFeatures pending.prevActivatedProtocolFeatures features

def nextPendingSchedule (fc : Primitives) (pending : PendingBlockHeaderState)
    (newProducers : Option ProducerSchedule) : ScheduleInfo :=
  match newProducers with
  | some schedule =>
    { schedule, scheduleHash := fc.hashSchedule schedule, scheduleLibNum := pending.blockNum }
  | none =>
    { pending.prevPendingSchedule with
      schedule :=
        if pending.wasPendingPromoted then
          { version := pending.prevPendingSchedule.schedule.version }
        else pending.prevPendingSchedule.schedule }

/-- `_finish_next`. -/
def finishNextCore (fc : Primitives) (pending : PendingBlockHeaderState) (h : SignedBlockHeader)
    (validator : FeatureValidator) : Checked BlockHeaderState := do
  pending.checkHeader h
  let extensions ← h.validateAndExtractHeaderExtensions fc
  let activated ← pending.nextActivatedFeatures validator extensions
  return { pending.toBlockHeaderStateCommon with
    id := h.id fc
    header := h
    pendingSchedule := pending.nextPendingSchedule fc h.newProducers
    activatedProtocolFeatures := activated
    headerExts := extensions }

end PendingBlockHeaderState

namespace BlockHeaderState

def sigDigest (fc : Primitives) (state : BlockHeaderState) : Digest :=
  let headerBmroot := fc.hashPair (fc.hashHeader state.header.toBlockHeader)
    state.blockrootMerkle.getRoot
  fc.hashPair headerBmroot state.pendingSchedule.scheduleHash

/-- `signee` followed by `verify_signee`. -/
def verifySignee (fc : Primitives) (state : BlockHeaderState) : Checked Unit :=
  eosAssert (fc.recoverKey state.header.producerSignature (state.sigDigest fc) =
      some state.blockSigningKey) .wrongSigningKey "block not signed by expected key"

def sign (fc : Primitives) (state : BlockHeaderState) (signer : Digest → Signature) :
    Checked BlockHeaderState := do
  let digest := state.sigDigest fc
  let signature := signer digest
  eosAssert (fc.recoverKey signature digest = some state.blockSigningKey) .wrongSigningKey
    "block is signed with unexpected key"
  return { state with header := { state.header with producerSignature := signature } }

end BlockHeaderState

namespace PendingBlockHeaderState

/-- `finish_next` for a block that somebody signed. -/
def finishNext (fc : Primitives) (pending : PendingBlockHeaderState) (h : SignedBlockHeader)
    (validator : FeatureValidator) (skipValidateSignee : Bool) : Checked BlockHeaderState := do
  let result ← pending.finishNextCore fc h validator
  if !skipValidateSignee then result.verifySignee fc
  return result

/-- `finish_next` for a block that this node signs. -/
def finishNextSigned (fc : Primitives) (pending : PendingBlockHeaderState) (h : SignedBlockHeader)
    (validator : FeatureValidator) (signer : Digest → Signature) : Checked BlockHeaderState := do
  let result ← pending.finishNextCore fc h validator
  result.sign fc signer

end PendingBlockHeaderState

/-- `block_header_state::next( h, validator, skip_validate_signee )`. -/
def BlockHeaderState.nextFromHeader (fc : Primitives) (state : BlockHeaderState)
    (h : SignedBlockHeader) (validator : FeatureValidator) (skipValidateSignee : Bool) :
    Checked BlockHeaderState := do
  let pending ← state.next fc h.timestamp h.confirmed
  pending.finishNext fc h validator skipValidateSignee

/-- What `initialize_blockchain_state` reads of the genesis configuration. -/
structure GenesisState where
  initialProducerList : List ProducerKey
  initialTimestamp : Nat
  chainId : Digest

/-- The header state that `controller_impl::initialize_blockchain_state` builds. -/
def GenesisState.headerState (fc : Primitives) (genesis : GenesisState) : BlockHeaderState :=
  let initialSchedule : ProducerSchedule := { producers := genesis.initialProducerList }
  let header : SignedBlockHeader :=
    { timestamp := genesis.initialTimestamp, actionMroot := genesis.chainId }
  { activeSchedule := initialSchedule
    pendingSchedule := { schedule := initialSchedule, scheduleHash := fc.hashSchedule initialSchedule }
    header
    id := header.id fc
    blockNum := header.blockNum }

end CodexRelay.Chain
