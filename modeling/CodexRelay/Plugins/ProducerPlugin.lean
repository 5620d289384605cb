import CodexRelay.Library.Run
import CodexRelay.Chain.HeaderState.Model

/-!
Contract: when `producer_plugin` signs a block, and what that block confirms.

Owns:
- the watermarks, `consider_new_watermark` and `on_block_header`;
- the part of `start_block` that decides whether the node produces and how many blocks it
  confirms, and `produce_block`;
- that the blocks which one process signs for a producer confirm disjoint ranges of rising
  numbers, whatever headers arrive and however the head moves.

Does not own: the transactions of the block and the timer. A block that the node signs is
committed in the same call, which raises `accepted_block_header`.
-/

namespace CodexRelay.Plugins

open Library Chain AList

variable {watermarks : ProducerMap} {producer : AccountName} {conditions : StartConditions}
  {scheduled : ProducerKey} {pending : PendingBlockHeaderState}

inductive PendingBlockMode where
  | producing
  | speculating
deriving DecidableEq

structure ProducerConfig where
  producers : List AccountName
  signatureProviders : List PublicKey

def blockIntervalUs : Nat := blockIntervalMs * 1000

def toTimePoint (slot : Nat) : Nat := slotTime slot

/-- `block_timestamp_type( time )` of a time from the epoch on. The slot is cut to 32 bits. -/
def slotOfTime (time : Nat) : Nat :=
  (time / 1000 - blockTimestampEpoch) / blockIntervalMs % 2 ^ 32

/-- `calculate_pending_block_time`: the next slot that is at least a tenth of the interval away. -/
def calculatePendingBlockTime (now headBlockTime : Nat) : Nat :=
  let base := max now headBlockTime
  let blockTime := base + (blockIntervalUs - base % blockIntervalUs)
  if blockTime - now < blockIntervalUs / 10 then blockTime + blockIntervalUs else blockTime

/-- What `start_block` reads of the clock and of the switches. -/
structure StartConditions where
  now : Nat
  readOnly : Bool
  productionEnabled : Bool
  pauseProduction : Bool
  irreversibleTooOld : Bool
  /-- the head is older than five seconds -/
  headTooOld : Bool
  /-- whether the rest of `controller::start_block` throws -/
  chainThrows : Bool

/-- The plugin with the part of the controller it reads. `signed` lists the blocks that the
node has signed, newest first. -/
structure ProducerPlugin where
  watermarks : ProducerMap := ∅
  pendingBlockMode : PendingBlockMode := .speculating
  head : BlockHeaderState
  pending : Option PendingBlockHeaderState := none
  signed : List PendingBlockHeaderState := []

namespace ProducerPlugin

variable {fc : Primitives} {config : ProducerConfig} {plugin plugin' : ProducerPlugin}

def considerNewWatermark (config : ProducerConfig) (watermarks : ProducerMap)
    (producer : AccountName) (blockNum : Nat) : ProducerMap :=
  match watermarks.lookup producer with
  | some watermark => watermarks.insert producer (max watermark blockNum)
  | none => if producer ∈ config.producers then watermarks.insert producer blockNum else watermarks

def getWatermark (plugin : ProducerPlugin) (producer : AccountName) : Option Nat :=
  plugin.watermarks.lookup producer

def pendingSlot (plugin : ProducerPlugin) (conditions : StartConditions) : Nat :=
  slotOfTime (calculatePendingBlockTime conditions.now (toTimePoint plugin.head.header.timestamp))

/-- The first tests of `start_block`, in their order. -/
def canProduce (config : ProducerConfig) (conditions : StartConditions) (scheduled : ProducerKey) :
    Bool :=
  conditions.productionEnabled && decide (scheduled.producerName ∈ config.producers) &&
    decide (scheduled.blockSigningKey ∈ config.signatureProviders) &&
      !conditions.pauseProduction && !conditions.irreversibleTooOld

/-- The mode that `start_block` decides on: a watermark at the next block or above excludes
the producer. -/
def startMode (config : ProducerConfig) (plugin : ProducerPlugin) (conditions : StartConditions)
    (scheduled : ProducerKey) : PendingBlockMode :=
  if canProduce config conditions scheduled then
    match plugin.getWatermark scheduled.producerName with
    | some watermark =>
      if succU32 plugin.head.blockNum ≤ watermark then .speculating else .producing
    | none => .producing
  else .speculating

def blocksToConfirm (plugin : ProducerPlugin) (producer : AccountName) : Nat :=
  let hbs := plugin.head
  let sinceWatermark := match plugin.getWatermark producer with
    | some watermark =>
      if watermark < hbs.blockNum then min (2 ^ 16 - 1) (hbs.blockNum - watermark) else 0
    | none => 0
  min sinceWatermark (subU32 hbs.blockNum hbs.dposIrreversibleBlocknum) % 2 ^ 16

/-- `start_block` up to the transactions. An early return leaves a pending block alone. -/
def startBlock (fc : Primitives) (config : ProducerConfig) (plugin : ProducerPlugin)
    (conditions : StartConditions) : Checked ProducerPlugin := do
  if conditions.readOnly then return plugin
  let slot := plugin.pendingSlot conditions
  let scheduled ← plugin.head.getScheduledProducer slot
  let mode := plugin.startMode config conditions scheduled
  if mode = .speculating ∧ conditions.headTooOld then
    return { plugin with pendingBlockMode := mode }
  let confirmed := if mode = .producing then plugin.blocksToConfirm scheduled.producerName else 0
  -- `LOG_AND_DROP`: when the controller throws, no block is pending.
  match plugin.head.next fc slot confirmed with
  | .error _ => return { plugin with pendingBlockMode := mode, pending := none }
  | .ok pending =>
    if conditions.chainThrows then
      return { plugin with pendingBlockMode := mode, pending := none }
    else if mode = .producing ∧ pending.blockSigningKey ≠ scheduled.blockSigningKey then
      return { plugin with pendingBlockMode := .speculating, pending := some pending }
    else return { plugin with pendingBlockMode := mode, pending := some pending }

/-- The next slot is one that a `uint32_t` holds. -/
def Timely (plugin : ProducerPlugin) (conditions : StartConditions) : Prop :=
  calculatePendingBlockTime conditions.now (toTimePoint plugin.head.header.timestamp) <
    toTimePoint (2 ^ 32)
deriving Decidable

/-- What can happen to the plugin. The head may be any after a block was pushed; its number is a
`uint32_t`. `allowed` restricts the clock. -/
inductive Step (fc : Primitives) (config : ProducerConfig)
    (allowed : ProducerPlugin → StartConditions → Prop) (plugin : ProducerPlugin) :
    ProducerPlugin → Prop where
  | startBlock (conditions : StartConditions) {started : ProducerPlugin}
      (width : plugin.head.blockNum < 2 ^ 32) (clock : allowed plugin conditions)
      (ran : plugin.startBlock fc config conditions = .ok started) :
      Step fc config allowed plugin started
  /-- `produce_block`, with `on_block_header` for the block it commits. -/
  | produceBlock {pending : PendingBlockHeaderState} (mode : plugin.pendingBlockMode = .producing)
      (building : plugin.pending = some pending)
      (hasKey : pending.blockSigningKey ∈ config.signatureProviders) (head : BlockHeaderState) :
      Step fc config allowed plugin { plugin with
        watermarks :=
          considerNewWatermark config plugin.watermarks pending.producer pending.blockNum
        head
        pending := none
        signed := pending :: plugin.signed }
  /-- `on_incoming_block` of a block whose header is accepted, on any fork. -/
  | blockHeader (producer : AccountName) (blockNum : Nat) (head : BlockHeaderState) :
      Step fc config allowed plugin { plugin with
        watermarks := considerNewWatermark config plugin.watermarks producer blockNum
        head
        pending := none }
  /-- The pending block is aborted, for a snapshot or for a block that is rejected. -/
  | abortBlock (head : BlockHeaderState) :
      Step fc config allowed plugin { plugin with head, pending := none }

/-! ### Watermarks -/

def SignedUpTo (watermarks : ProducerMap) (producer : AccountName) (blockNum : Nat) : Prop :=
  ∃ watermark, watermarks.lookup producer = some watermark ∧ blockNum ≤ watermark

theorem SignedUpTo.considerNewWatermark {name : AccountName} {num : Nat}
    (signed : SignedUpTo watermarks name num) (producer : AccountName) (blockNum : Nat) :
    SignedUpTo (considerNewWatermark config watermarks producer blockNum) name num := by
  obtain ⟨watermark, found, le⟩ := signed
  unfold ProducerPlugin.considerNewWatermark
  by_cases same : name = producer
  · subst same
    rw [found]
    exact ⟨max watermark blockNum, lookup_insert _, le.trans (le_max_left _ _)⟩
  · refine ⟨watermark, ?_, le⟩
    split
    · rw [lookup_insert_ne same, found]
    · split_ifs
      · rw [lookup_insert_ne same, found]
      · exact found

theorem signedUpTo_own (configured : producer ∈ config.producers) (watermarks : ProducerMap)
    (blockNum : Nat) :
    SignedUpTo (considerNewWatermark config watermarks producer blockNum) producer blockNum := by
  unfold considerNewWatermark
  split
  · exact ⟨_, lookup_insert _, le_max_right _ _⟩
  · rw [if_pos configured]
    exact ⟨_, lookup_insert _, le_rfl⟩

/-! ### The block that is started -/

/-- The pending block is later than the head, so that its slot is not the default one. -/
theorem Timely.timestamp_lt_pendingSlot (timely : plugin.Timely conditions) :
    plugin.head.header.timestamp < plugin.pendingSlot conditions := by
  unfold Timely at timely
  unfold pendingSlot slotOfTime
  unfold calculatePendingBlockTime toTimePoint slotTime blockIntervalUs blockIntervalMs
    blockTimestampEpoch at *
  dsimp only at *
  split_ifs at * <;> omega

theorem watermark_add_blocksToConfirm_le {watermark : Nat}
    (found : plugin.getWatermark producer = some watermark)
    (below : watermark < plugin.head.blockNum + 1) :
    watermark + plugin.blocksToConfirm producer ≤ plugin.head.blockNum := by
  unfold blocksToConfirm
  rw [found]
  dsimp only
  have confirmed := Nat.mod_le (min (if watermark < plugin.head.blockNum then
    min (2 ^ 16 - 1) (plugin.head.blockNum - watermark) else 0)
    (subU32 plugin.head.blockNum plugin.head.dposIrreversibleBlocknum)) (2 ^ 16)
  split_ifs at confirmed ⊢ <;> omega

/-- A block that is ready to be signed: its producer is one of the node's, and what it confirms
comes after the producer's watermark. -/
structure Ready (config : ProducerConfig) (watermarks : ProducerMap)
    (pending : PendingBlockHeaderState) : Prop where
  configured : pending.producer ∈ config.producers
  above : ∀ watermark, watermarks.lookup pending.producer = some watermark →
    watermark + pending.confirmed < pending.blockNum

theorem startMode_producing (producing : plugin.startMode config conditions scheduled = .producing) :
    scheduled.producerName ∈ config.producers ∧
      ∀ watermark, plugin.getWatermark scheduled.producerName = some watermark →
        watermark < succU32 plugin.head.blockNum := by
  unfold startMode at producing
  split at producing
  case isFalse => cases producing
  case isTrue can =>
    unfold canProduce at can
    simp only [Bool.and_eq_true, decide_eq_true_eq] at can
    refine ⟨can.1.1.1.2, fun watermark found => ?_⟩
    rw [found] at producing
    dsimp only at producing
    split at producing
    · cases producing
    · omega

theorem next_fields {head : BlockHeaderState} {slot confirmed : Nat}
    (later : head.header.timestamp < slot)
    (producer : head.getScheduledProducer slot = .ok scheduled)
    (opened : head.next fc slot confirmed = .ok pending) :
    pending.producer = scheduled.producerName ∧ pending.blockNum = succU32 head.blockNum ∧
      pending.confirmed = confirmed := by
  have isSlot : head.nextSlot slot = .ok slot := by
    unfold BlockHeaderState.nextSlot
    rw [if_pos (by omega)]
    exact sequence_eq_ok.mpr ⟨(), eosAssert_eq_ok.mpr later, rfl⟩
  unfold BlockHeaderState.next at opened
  obtain ⟨chosen, chose, opened⟩ := of_bind opened
  obtain rfl := Except.ok.inj (isSlot.symm.trans chose)
  obtain ⟨prokey, scheduledEq, opened⟩ := of_bind opened
  obtain ⟨_, -, opened⟩ := of_bind opened
  obtain rfl := Except.ok.inj opened
  obtain rfl := Except.ok.inj (scheduledEq.symm.trans producer)
  exact ⟨rfl, rfl, rfl⟩

/-- After `start_block`, a block that is to be produced is ready. -/
theorem startBlock_ready (width : plugin.head.blockNum < 2 ^ 32) (timely : plugin.Timely conditions)
    (ran : plugin.startBlock fc config conditions = .ok plugin') :
    plugin' = plugin ∨ (plugin'.watermarks = plugin.watermarks ∧ plugin'.signed = plugin.signed ∧
      (plugin'.pendingBlockMode = .producing → ∀ pending, plugin'.pending = some pending →
        Ready config plugin.watermarks pending)) := by
  unfold startBlock at ran
  split at ran
  case isTrue => exact .inl (Except.ok.inj ran).symm
  case isFalse =>
    refine .inr ?_
    obtain ⟨scheduled, isScheduled, ran⟩ := of_bind ran
    have later := timely.timestamp_lt_pendingSlot
    generalize decided : plugin.startMode config conditions scheduled = mode at ran
    dsimp only at ran
    split at ran
    case isTrue waits =>
      obtain rfl := Except.ok.inj ran
      refine ⟨rfl, rfl, fun producing => ?_⟩
      rw [waits.1] at producing
      cases producing
    case isFalse =>
      split at ran
      case h_1 =>
        obtain rfl := Except.ok.inj ran
        exact ⟨rfl, rfl, fun _ _ building => nomatch building⟩
      case h_2 pending opened =>
        split at ran
        case isTrue =>
          obtain rfl := Except.ok.inj ran
          exact ⟨rfl, rfl, fun _ _ building => nomatch building⟩
        case isFalse =>
          split at ran
          case isTrue =>
            obtain rfl := Except.ok.inj ran
            exact ⟨rfl, rfl, fun producing => by cases producing⟩
          case isFalse =>
            obtain rfl := Except.ok.inj ran
            refine ⟨rfl, rfl, fun producing other building => ?_⟩
            obtain rfl := Option.some.inj building
            obtain rfl : mode = .producing := producing
            obtain ⟨configured, below⟩ := startMode_producing decided
            rw [if_pos rfl] at opened
            obtain ⟨producer, number, confirmed⟩ := next_fields later isScheduled opened
            refine ⟨producer ▸ configured, fun watermark found => ?_⟩
            rw [producer] at found
            -- the number of the block does not wrap above a watermark
            have reached := below _ found
            unfold succU32 at reached number
            have after := watermark_add_blocksToConfirm_le found (by omega)
            omega

/-! ### Runs -/

def confirmedRange (block : PendingBlockHeaderState) : Set ℤ :=
  Set.Icc (block.blockNum - block.confirmed : ℤ) block.blockNum

/-- The blocks signed for one producer, newest first: their numbers rise, and no number is
confirmed twice. -/
def NoDoubleSigning (signed : List PendingBlockHeaderState) : Prop :=
  signed.Pairwise fun newer older => newer.producer = older.producer →
    older.blockNum < newer.blockNum ∧ Disjoint (confirmedRange newer) (confirmedRange older)

structure Invariant (config : ProducerConfig) (plugin : ProducerPlugin) : Prop where
  signed : ∀ block ∈ plugin.signed, SignedUpTo plugin.watermarks block.producer block.blockNum
  ready : plugin.pendingBlockMode = .producing → ∀ pending, plugin.pending = some pending →
    Ready config plugin.watermarks pending
  single : NoDoubleSigning plugin.signed

theorem Ready.not_double {block : PendingBlockHeaderState} (ready : Ready config watermarks pending)
    (signed : SignedUpTo watermarks block.producer block.blockNum)
    (same : pending.producer = block.producer) :
    block.blockNum < pending.blockNum ∧ Disjoint (confirmedRange pending) (confirmedRange block) := by
  obtain ⟨watermark, found, le⟩ := signed
  have above := ready.above watermark (same ▸ found)
  refine ⟨by omega, Set.disjoint_left.mpr fun num inNew inOld => ?_⟩
  have lower := inNew.1
  have upper := inOld.2
  omega

theorem Invariant.step (invariant : plugin.Invariant config)
    (step : Step fc config Timely plugin plugin') : plugin'.Invariant config := by
  cases step with
  | startBlock conditions width timely ran =>
    rcases startBlock_ready width timely ran with rfl | ⟨watermarks, signed, ready⟩
    · exact invariant
    · refine ⟨?_, ?_, ?_⟩
      · rw [watermarks, signed]
        exact invariant.signed
      · rw [watermarks]
        exact ready
      · rw [signed]
        exact invariant.single
  | produceBlock mode building _ head =>
    have ready := invariant.ready mode _ building
    refine ⟨?_, (fun _ _ building => nomatch building), ?_⟩
    · intro block member
      rcases List.mem_cons.mp member with rfl | older
      · exact signedUpTo_own ready.configured _ _
      · exact (invariant.signed block older).considerNewWatermark _ _
    · refine List.pairwise_cons.mpr ⟨fun block member same => ?_, invariant.single⟩
      exact ready.not_double (invariant.signed block member) same
  | blockHeader producer blockNum head =>
    refine ⟨fun block member => ?_, (fun _ _ building => nomatch building), invariant.single⟩
    exact (invariant.signed block member).considerNewWatermark _ _
  | abortBlock head =>
    exact ⟨invariant.signed, (fun _ _ building => nomatch building), invariant.single⟩

/-- **A process does not sign twice**: in every run of the plugin that begins with no block
pending, and whose slots fit into 32 bits, the blocks signed for one producer have rising numbers
and disjoint ranges. -/
theorem noDoubleSigning_of_run {start last : ProducerPlugin} {visited : List ProducerPlugin}
    (fresh : start.signed = []) (idle : start.pending = none)
    (run : Run (Step fc config Timely) start visited last) : NoDoubleSigning last.signed := by
  have invariant : last.Invariant config := by
    induction run with
    | refl => exact ⟨by simp [fresh], by simp [idle], by simp [fresh, NoDoubleSigning]⟩
    | snoc _ step ih => exact ih.step step
  exact invariant.single

def enabled (now : Nat) : StartConditions :=
  { now, readOnly := false, productionEnabled := true, pauseProduction := false,
    irreversibleTooOld := false, headTooOld := false, chainThrows := false }

/-- The node has the producers 1 and 2, which sign with one key. -/
def twoConfig : ProducerConfig := ⟨[1, 2], [5]⟩

/-- The head at slot 2. Slot 3 begins the turn of producer 2. -/
def twoHead : BlockHeaderState := (⟨[⟨1, 5⟩, ⟨2, 5⟩], 2, 0⟩ : GenesisState).headerState .zero

def starting (signed : List PendingBlockHeaderState) (watermarks : ProducerMap) : ProducerPlugin :=
  { watermarks
    pendingBlockMode := .producing
    head := twoHead
    pending := some (twoHead.buildPending .zero 3 ⟨2, 5⟩ 0)
    signed }

def signedBlock : ProducerPlugin :=
  { watermarks := AList.insert 2 2 ∅
    pendingBlockMode := .producing
    head := twoHead
    signed := [twoHead.buildPending .zero 3 ⟨2, 5⟩ 0] }

theorem step_signedBlock {allowed : ProducerPlugin → StartConditions → Prop}
    (clock : allowed { head := twoHead } (enabled (toTimePoint 2))) :
    Run (Step .zero twoConfig allowed) { head := twoHead } [signedBlock, starting [] ∅] signedBlock :=
  .snoc (.snoc .refl (.startBlock _ (by decide) clock rfl))
    (@Step.produceBlock .zero twoConfig allowed (starting [] ∅) _ rfl rfl (by decide) twoHead)

/-- Block 2 is signed for producer 2, and the head is moved back before it. -/
theorem noDoubleSigning_of_first_block :
    (signedBlock.signed.map (·.blockNum) = [2] ∧ signedBlock.getWatermark 2 = some 2) ∧
      NoDoubleSigning signedBlock.signed :=
  ⟨⟨rfl, rfl⟩, noDoubleSigning_of_run rfl rfl (step_signedBlock (by decide))⟩

/-- When the slot of the clock is cut to 0, the watermark of producer 1 is looked up, whose turn slot
0 is. The block is opened at the slot after the head, for producer 2, and signed again. -/
theorem double_signing_after_last_slot :
    ∃ visited last, Run (Step .zero twoConfig fun _ _ => True) { head := twoHead } visited last ∧
      ¬ NoDoubleSigning last.signed := by
  have started : Step .zero twoConfig (fun _ _ => True) signedBlock
      (starting signedBlock.signed signedBlock.watermarks) :=
    .startBlock (enabled (toTimePoint (2 ^ 32 - 1))) (by decide) trivial rfl
  have signed := @Step.produceBlock .zero twoConfig (fun _ _ => True)
    (starting signedBlock.signed signedBlock.watermarks) _ rfl rfl (by decide) twoHead
  refine ⟨_, _, ((step_signedBlock trivial).snoc started).snoc signed, fun single => ?_⟩
  exact absurd ((List.pairwise_cons.mp single).1 _ List.mem_cons_self rfl).1 (lt_irrefl _)

end ProducerPlugin

end CodexRelay.Plugins
