import CodexRelay.Library.Run
import CodexRelay.Chain.HeaderState.Model

/-!
Contract: what one block does to a header state, and branches of blocks.

Owns:
- `Extends`, the relation of a header state to the states that `next` and
  `finish_next` build on it, for received and for produced blocks alike;
- `Step`, which says once everything such a block can do; the invariants of the
  header-state modules are derived from its fields only;
- the fields of the genesis state.
-/

namespace CodexRelay.Chain

open Library BlockHeaderState PendingBlockHeaderState

variable {fc : Primitives}

variable {state left right : BlockHeaderState}

variable {input : BlockInput} {inputs : List BlockInput}

/-- `child` was built on `parent` by `next` and one of the `finish_next`
overloads. The slot is a `uint32_t`, the confirmed count a `uint16_t`. -/
inductive Extends (fc : Primitives) (parent child : BlockHeaderState) : Prop where
  | received {slot confirmed : Nat} {pending : PendingBlockHeaderState} {h : SignedBlockHeader}
      {validator : FeatureValidator} {skipValidateSignee : Bool}
      (slotWidth : slot < 2 ^ 32) (confirmedWidth : confirmed < 2 ^ 16)
      (opened : parent.next fc slot confirmed = .ok pending)
      (finished : pending.finishNext fc h validator skipValidateSignee = .ok child)
  | produced {slot confirmed : Nat} {pending : PendingBlockHeaderState} {h : SignedBlockHeader}
      {validator : FeatureValidator} {signer : Digest → Signature}
      (slotWidth : slot < 2 ^ 32) (confirmedWidth : confirmed < 2 ^ 16)
      (opened : parent.next fc slot confirmed = .ok pending)
      (finished : pending.finishNextSigned fc h validator signer = .ok child)

/-- The effect of a block that `prokey` produces at `slot`, confirming
`confirmed` earlier blocks. -/
structure Step (fc : Primitives) (parent : BlockHeaderState) (slot : Nat) (prokey : ProducerKey)
    (confirmed : Nat) (child : BlockHeaderState) : Prop where
  confirmedWidth : confirmed < 2 ^ 16
  scheduled : parent.getScheduledProducer slot = .ok prokey
  notDoubleConfirmed : parent.checkDoubleConfirm prokey.producerName confirmed = .ok ()
  common : child.toBlockHeaderStateCommon =
    (parent.buildPending fc slot prokey confirmed).toBlockHeaderStateCommon
  headerProducer : child.header.producer = prokey.producerName
  headerConfirmed : child.header.confirmed = confirmed
  pendingSchedule : child.pendingSchedule =
    (parent.buildPending fc slot prokey confirmed).nextPendingSchedule fc child.header.newProducers
  newProducers : child.header.newProducers ≠ none → parent.pendingSchedule.schedule.producers = []

/-! ### Inversion -/

theorem BlockHeaderState.next_eq_ok {parent : BlockHeaderState} {slot confirmed : Nat}
    {pending : PendingBlockHeaderState} (opened : parent.next fc slot confirmed = .ok pending) :
    ∃ slot prokey, parent.getScheduledProducer slot = .ok prokey ∧
      parent.checkDoubleConfirm prokey.producerName confirmed = .ok () ∧
      pending = parent.buildPending fc slot prokey confirmed := by
  unfold BlockHeaderState.next at opened
  obtain ⟨slot, -, opened⟩ := of_bind opened
  obtain ⟨prokey, scheduled, opened⟩ := of_bind opened
  obtain ⟨_, checked, opened⟩ := of_bind opened
  exact ⟨slot, prokey, scheduled, checked, (Except.ok.inj opened).symm⟩

theorem BlockHeaderState.mem_of_getScheduledProducer {slot : Nat} {prokey : ProducerKey}
    (scheduled : state.getScheduledProducer slot = .ok prokey) :
    prokey ∈ state.activeSchedule.producers := by
  unfold getScheduledProducer at scheduled
  dsimp only at scheduled
  split at scheduled
  case h_1 key found =>
    obtain rfl := Except.ok.inj scheduled
    exact List.mem_of_getElem? found
  case h_2 => cases scheduled

namespace PendingBlockHeaderState

variable {pending : PendingBlockHeaderState} {h : SignedBlockHeader} {child : BlockHeaderState}
  {validator : FeatureValidator}

theorem checkHeader_eq_ok {done : Unit} (checked : pending.checkHeader h = .ok done) :
    h.confirmed = pending.confirmed ∧ h.producer = pending.producer ∧
      (h.newProducers ≠ none → pending.prevPendingSchedule.schedule.producers = []) := by
  unfold checkHeader at checked
  simp only [sequence_eq_ok, eosAssert_eq_ok, exists_const] at checked
  obtain ⟨-, -, confirmed, producer, -, schedules⟩ := checked
  refine ⟨confirmed, producer, fun proposed => ?_⟩
  obtain ⟨schedule, given⟩ := Option.ne_none_iff_exists'.mp proposed
  rw [given] at schedules
  simp only [sequence_eq_ok, eosAssert_eq_ok, exists_const] at schedules
  exact List.eq_nil_of_length_eq_zero schedules.2.2

theorem finishNextCore_eq_ok (finished : pending.finishNextCore fc h validator = .ok child) :
    pending.checkHeader h = .ok () ∧ child.header = h ∧
      child.toBlockHeaderStateCommon = pending.toBlockHeaderStateCommon ∧
      child.pendingSchedule = pending.nextPendingSchedule fc h.newProducers := by
  unfold finishNextCore at finished
  obtain ⟨_, checked, finished⟩ := of_bind finished
  obtain ⟨extensions, -, finished⟩ := of_bind finished
  obtain ⟨activated, -, finished⟩ := of_bind finished
  obtain rfl := Except.ok.inj finished
  exact ⟨checked, rfl, rfl, rfl⟩

theorem finishNext_eq_ok {skipValidateSignee : Bool}
    (finished : pending.finishNext fc h validator skipValidateSignee = .ok child) :
    pending.finishNextCore fc h validator = .ok child := by
  unfold finishNext at finished
  obtain ⟨result, core, finished⟩ := of_bind finished
  rw [core]
  cases skipValidateSignee with
  | true => exact finished
  | false =>
    obtain ⟨_, -, finished⟩ := of_bind finished
    exact finished

/-- Signing changes the signature of the header and nothing else. -/
theorem finishNextSigned_eq_ok {signer : Digest → Signature}
    (finished : pending.finishNextSigned fc h validator signer = .ok child) :
    ∃ unsigned signature, pending.finishNextCore fc h validator = .ok unsigned ∧
      child = { unsigned with header := { unsigned.header with producerSignature := signature } } := by
  unfold finishNextSigned at finished
  obtain ⟨unsigned, core, finished⟩ := of_bind finished
  unfold BlockHeaderState.sign at finished
  obtain ⟨_, -, finished⟩ := of_bind finished
  exact ⟨unsigned, _, core, (Except.ok.inj finished).symm⟩

end PendingBlockHeaderState

theorem Extends.step {parent child : BlockHeaderState} (extended : Extends fc parent child) :
    ∃ slot prokey confirmed, Step fc parent slot prokey confirmed child := by
  cases extended with
  | received _ confirmedWidth opened finished =>
    obtain ⟨slot, prokey, scheduled, notDouble, rfl⟩ := next_eq_ok opened
    obtain ⟨checked, rfl, common, pendingSchedule⟩ := finishNextCore_eq_ok
        (finishNext_eq_ok finished)
    obtain ⟨confirmed, producer, newProducers⟩ := checkHeader_eq_ok checked
    exact ⟨slot, prokey, _, confirmedWidth, scheduled, notDouble, common, producer, confirmed,
      pendingSchedule, newProducers⟩
  | produced _ confirmedWidth opened finished =>
    obtain ⟨slot, prokey, scheduled, notDouble, rfl⟩ := next_eq_ok opened
    obtain ⟨unsigned, signature, core, rfl⟩ := finishNextSigned_eq_ok finished
    obtain ⟨checked, rfl, common, pendingSchedule⟩ := finishNextCore_eq_ok core
    obtain ⟨confirmed, producer, newProducers⟩ := checkHeader_eq_ok checked
    exact ⟨slot, prokey, _, confirmedWidth, scheduled, notDouble, common, producer, confirmed,
      pendingSchedule, newProducers⟩

/-! ### The fields after a block -/

namespace Step

variable {parent child : BlockHeaderState} {slot confirmed : Nat} {prokey : ProducerKey}

section

variable (step : Step fc parent slot prokey confirmed child)

include step

theorem blockNum_eq : child.blockNum = succU32 parent.blockNum := congrArg (·.blockNum) step.common

theorem lib_eq :
    child.dposIrreversibleBlocknum = parent.calcDposLastIrreversible prokey.producerName :=
  congrArg (·.dposIrreversibleBlocknum) step.common

theorem activeSchedule_eq :
    child.activeSchedule =
      if parent.promotesPending child.dposIrreversibleBlocknum then parent.pendingSchedule.schedule
      else parent.activeSchedule := by
  rw [step.lib_eq]
  exact congrArg (·.activeSchedule) step.common

theorem lastProduced_eq :
    child.producerToLastProduced =
      (if parent.promotesPending child.dposIrreversibleBlocknum then
        rebuildProducerMap parent.pendingSchedule.schedule.producers prokey.producerName
          child.blockNum parent.producerToLastProduced child.dposIrreversibleBlocknum
      else parent.producerToLastProduced).insert prokey.producerName child.blockNum := by
  rw [step.lib_eq, step.blockNum_eq]
  exact congrArg (·.producerToLastProduced) step.common

theorem impliedIrb_eq :
    child.producerToLastImpliedIrb =
      if parent.promotesPending child.dposIrreversibleBlocknum then
        rebuildProducerMap parent.pendingSchedule.schedule.producers prokey.producerName
          parent.dposProposedIrreversibleBlocknum parent.producerToLastImpliedIrb
          child.dposIrreversibleBlocknum
      else
        parent.producerToLastImpliedIrb.insert prokey.producerName
          parent.dposProposedIrreversibleBlocknum := by
  rw [step.lib_eq]
  exact congrArg (·.producerToLastImpliedIrb) step.common

theorem pendingSchedule_eq :
    child.pendingSchedule = match child.header.newProducers with
      | some schedule =>
        { schedule, scheduleHash := fc.hashSchedule schedule, scheduleLibNum := child.blockNum }
      | none =>
        { parent.pendingSchedule with
          schedule :=
            if parent.promotesPending child.dposIrreversibleBlocknum then
              { version := parent.pendingSchedule.schedule.version }
            else parent.pendingSchedule.schedule } := by
  rw [step.lib_eq, step.blockNum_eq]
  exact step.pendingSchedule

/-- The producer of a block belongs to the schedule of the parent state. -/
theorem scheduled_mem : prokey ∈ parent.activeSchedule.producers :=
  mem_of_getScheduledProducer step.scheduled

end

end Step

/-! ### Numbers along a branch -/

/-- A block whose number did not wrap. -/
structure Numbered (fc : Primitives) (parent child : BlockHeaderState) : Prop where
  extended : Extends fc parent child
  number : child.blockNum = parent.blockNum + 1

/-- The numbers of a branch are consecutive as long as they fit into 32 bits. -/
theorem numbered_of_run {start last : BlockHeaderState} {visited : List BlockHeaderState}
    (branch : Run (Extends fc) start visited last)
    (fits : start.blockNum + visited.length < 2 ^ 32) :
    Run (Numbered fc) start visited last ∧ last.blockNum = start.blockNum + visited.length := by
  induction branch with
  | refl => exact ⟨.refl, rfl⟩
  | snoc _ extended ih =>
    rw [List.length_cons] at fits
    obtain ⟨earlier, reached⟩ := ih (by omega)
    obtain ⟨_, _, _, step⟩ := extended.step
    have number := step.blockNum_eq
    rw [succU32, reached, Nat.mod_eq_of_lt (by omega)] at number
    exact ⟨earlier.snoc ⟨extended, by rw [number, reached]⟩, number⟩

/-- The entry that the rebuild gives to the producers of the promoted schedule. -/
theorem lookup_rebuildProducerMap (producers : List ProducerKey) (scheduled : AccountName)
    (own : Nat) (existing : ProducerMap) (fallback : Nat) (name : AccountName) :
    (rebuildProducerMap producers scheduled own existing fallback).lookup name =
      if name ∈ producers.map (·.producerName) then
        some (if name = scheduled then own else (existing.lookup name).getD fallback)
      else none := by
  unfold rebuildProducerMap
  -- The loop inserts from the left, so the induction is on the last producer.
  induction producers using List.reverseRecOn with
  | nil => simp
  | append_singleton producers key ih =>
    rw [List.foldl_append, List.foldl_cons, List.foldl_nil]
    by_cases same : name = key.producerName
    · subst same
      simp
    · rw [AList.lookup_insert_ne same, ih]
      simp [same]

/-! ### Schedules along a branch -/

/-- The genesis state: its schedule is active and pending at once, and the first
block promotes it. -/
def InitialSchedulePending (state : BlockHeaderState) : Prop :=
  state.pendingSchedule.schedule = state.activeSchedule ∧ state.pendingSchedule.scheduleLibNum = 0

theorem GenesisState.initialSchedulePending (genesis : GenesisState) :
    InitialSchedulePending (genesis.headerState fc) :=
  ⟨rfl, rfl⟩

theorem BlockHeaderState.promotesPending_iff {lib : Nat} :
    state.promotesPending lib = true ↔
      state.pendingSchedule.schedule.producers ≠ [] ∧
        state.pendingSchedule.scheduleLibNum ≤ lib := by
  simp [promotesPending]

namespace Step

variable {parent child : BlockHeaderState} {slot confirmed : Nat} {prokey : ProducerKey}

section

variable (step : Step fc parent slot prokey confirmed child)

include step

theorem promotes_of_initial (initial : InitialSchedulePending parent) :
    parent.promotesPending child.dposIrreversibleBlocknum = true := by
  rw [promotesPending_iff, initial.1, initial.2]
  exact ⟨List.ne_nil_of_mem step.scheduled_mem, Nat.zero_le _⟩

theorem pendingProducers_of_promotes
    (promotes : parent.promotesPending child.dposIrreversibleBlocknum = true) :
    child.pendingSchedule.schedule.producers = [] := by
  have noneProposed : child.header.newProducers = none := by
    by_contra proposed
    exact (BlockHeaderState.promotesPending_iff.mp promotes).1 (step.newProducers proposed)
  rw [step.pendingSchedule_eq, noneProposed]
  simp [promotes]

theorem pendingSchedule_of_not_promotes
    (keeps : ¬ parent.promotesPending child.dposIrreversibleBlocknum = true) :
    child.pendingSchedule = parent.pendingSchedule ∨
      child.pendingSchedule.scheduleLibNum = child.blockNum := by
  rw [step.pendingSchedule_eq]
  cases child.header.newProducers with
  | none =>
    rw [if_neg keeps]
    exact .inl rfl
  | some schedule => exact .inr rfl

/-- A map knows the scheduled producers after a block when a promotion gives all
of them an entry and any other block removes none. -/
theorem active_mem {before after : ProducerMap}
    (known : InitialSchedulePending parent ∨
      ∀ key ∈ parent.activeSchedule.producers, key.producerName ∈ before)
    (promoted : parent.promotesPending child.dposIrreversibleBlocknum = true →
      ∀ key ∈ parent.pendingSchedule.schedule.producers, key.producerName ∈ after)
    (kept : ¬ parent.promotesPending child.dposIrreversibleBlocknum = true →
      ∀ name ∈ before, name ∈ after) :
    ∀ key ∈ child.activeSchedule.producers, key.producerName ∈ after := by
  intro key member
  rw [step.activeSchedule_eq] at member
  by_cases promotes : parent.promotesPending child.dposIrreversibleBlocknum = true
  · rw [if_pos promotes] at member
    exact promoted promotes key member
  · rw [if_neg promotes] at member
    refine kept promotes _ ?_
    rcases known with initial | known
    · exact absurd (step.promotes_of_initial initial) promotes
    · exact known key member

end

end Step

/-- What the first block gives and every later one keeps holds after genesis. -/
theorem known_of_run {genesis : GenesisState} {last : BlockHeaderState}
    {visited : List BlockHeaderState} {known : BlockHeaderState → Prop}
    (kept : ∀ {parent child slot prokey confirmed}, Step fc parent slot prokey confirmed child →
      InitialSchedulePending parent ∨ known parent → known child)
    (branch : Run (Extends fc) (genesis.headerState fc) visited last) :
    InitialSchedulePending last ∨ known last := by
  induction branch with
  | refl => exact .inl genesis.initialSchedulePending
  | snoc _ extended ih =>
    obtain ⟨_, _, _, step⟩ := extended.step
    exact .inr (kept step ih)

theorem mem_rebuildProducerMap {producers : List ProducerKey} {scheduled : AccountName} {own : Nat}
    {existing : ProducerMap} {fallback : Nat} {name : AccountName} :
    name ∈ rebuildProducerMap producers scheduled own existing fallback ↔
      name ∈ producers.map (·.producerName) := by
  rw [← AList.lookup_isSome, lookup_rebuildProducerMap]
  split_ifs with member <;> simp [member]

theorem GenesisState.numbered_of_run {genesis : GenesisState} {last : BlockHeaderState}
    {visited : List BlockHeaderState}
    (branch : Run (Extends fc) (genesis.headerState fc) visited last)
    (fits : visited.length + 1 < 2 ^ 32) :
    Run (Numbered fc) (genesis.headerState fc) visited last := by
  have first : (genesis.headerState fc).blockNum = 1 :=
    show (BlockHeader.numFromId 0 + 1) % 2 ^ 32 = 1 by decide
  exact (Chain.numbered_of_run branch (by omega)).1

/-! ### Confirmed ranges -/

namespace BlockHeaderState

/-- The block numbers that the block of `state` confirms, itself included:
`[block_num - confirmed, block_num]` over the integers. -/
def confirmedRange (state : BlockHeaderState) : Set ℤ :=
  { num | state.blockNum - state.header.confirmed ≤ num ∧ num ≤ state.blockNum }

instance (state : BlockHeaderState) (num : ℤ) : Decidable (num ∈ state.confirmedRange) :=
  inferInstanceAs (Decidable (state.blockNum - state.header.confirmed ≤ num ∧ num ≤ state.blockNum))

theorem mem_confirmedRange {num : Nat} :
    (num : ℤ) ∈ state.confirmedRange ↔
      state.blockNum ≤ num + state.header.confirmed ∧ num ≤ state.blockNum := by
  unfold confirmedRange
  rw [Set.mem_ofPred_eq]
  omega

end BlockHeaderState

def confirmers (blocks : List BlockHeaderState) (num : Nat) : List BlockHeaderState :=
  blocks.filter fun block => (num : ℤ) ∈ block.confirmedRange

/-- No two blocks of one producer have overlapping confirmed ranges. -/
def NoDoubleConfirmation (blocks : List BlockHeaderState) : Prop :=
  blocks.Pairwise fun newer older => newer.header.producer = older.header.producer →
    Disjoint newer.confirmedRange older.confirmedRange

/-! ### Building a branch -/

structure BlockInput where
  slot : Nat
  prokey : ProducerKey
  confirmed : Nat
  newProducers : Option ProducerSchedule := none

namespace BlockHeaderState

def makeChild (fc : Primitives) (parent : BlockHeaderState) (input : BlockInput) :
    BlockHeaderState :=
  let pending := parent.buildPending fc input.slot input.prokey input.confirmed
  let h := pending.makeBlockHeader fc 0 0 input.newProducers []
  { pending.toBlockHeaderStateCommon with
    id := h.id fc
    header := h
    pendingSchedule := pending.nextPendingSchedule fc input.newProducers
    activatedProtocolFeatures := pending.prevActivatedProtocolFeatures }

/-- What `next` and `finish_next` ask of such a block. -/
structure MayProduce (parent : BlockHeaderState) (input : BlockInput) : Prop where
  slotWidth : input.slot < 2 ^ 32
  confirmedWidth : input.confirmed < 2 ^ 16
  future : parent.nextSlot input.slot = .ok input.slot
  scheduled : parent.getScheduledProducer input.slot = .ok input.prokey
  notDoubleConfirmed : parent.checkDoubleConfirm input.prokey.producerName input.confirmed = .ok ()
  newProducers : ∀ schedule ∈ input.newProducers,
    parent.promotesPending (parent.calcDposLastIrreversible input.prokey.producerName) = false ∧
      schedule.version = succU32 parent.activeSchedule.version ∧
      parent.pendingSchedule.schedule.producers = []

/-- A node accepts the header it makes for its own pending state. -/
theorem MayProduce.extends {parent : BlockHeaderState} (allowed : parent.MayProduce input)
    (fc : Primitives) :
    Extends fc parent (parent.makeChild fc input) := by
  set pending := parent.buildPending fc input.slot input.prokey input.confirmed with built
  have opened : parent.next fc input.slot input.confirmed = .ok pending :=
    sequence_eq_ok.mpr ⟨input.slot, allowed.future,
      sequence_eq_ok.mpr ⟨input.prokey, allowed.scheduled,
        sequence_eq_ok.mpr ⟨(), allowed.notDoubleConfirmed, rfl⟩⟩⟩
  set h := pending.makeBlockHeader fc 0 0 input.newProducers []
  have checked : pending.checkHeader h = .ok () := by
    unfold checkHeader
    simp only [sequence_eq_ok, eosAssert_eq_ok, exists_const]
    refine ⟨rfl, rfl, rfl, rfl, rfl, ?_⟩
    have proposed : h.newProducers = input.newProducers := rfl
    rw [proposed]
    cases proposal : input.newProducers with
    | none => rfl
    | some schedule =>
      obtain ⟨notPromoted, version, noPending⟩ := allowed.newProducers schedule proposal
      have kept : pending.activeSchedule = parent.activeSchedule := by
        simp [built, buildPending, notPromoted]
      simp only [sequence_eq_ok, eosAssert_eq_ok, exists_const]
      exact ⟨notPromoted, by rw [kept, version], by simp [built, buildPending, noPending]⟩
  have finished : pending.finishNext fc h (fun _ _ _ => .ok ()) true =
      .ok (parent.makeChild fc input) := by
    unfold finishNext finishNextCore
    rw [checked]
    rfl
  exact .received allowed.slotWidth allowed.confirmedWidth opened finished

/-- The blocks that `inputs` make on `start`; both lists have the newest first. -/
def makeBranch (fc : Primitives) (start : BlockHeaderState) : List BlockInput → List BlockHeaderState
  | [] => []
  | input :: earlier =>
    ((makeBranch fc start earlier).headD start).makeChild fc input :: makeBranch fc start earlier

def MayProduceBranch (fc : Primitives) (start : BlockHeaderState) : List BlockInput → Prop
  | [] => True
  | input :: earlier =>
    ((makeBranch fc start earlier).headD start).MayProduce input ∧ MayProduceBranch fc start earlier

theorem MayProduceBranch.run {start : BlockHeaderState}
    (allowed : MayProduceBranch fc start inputs) :
    Run (Extends fc) start (makeBranch fc start inputs)
      ((makeBranch fc start inputs).headD start) := by
  induction inputs with
  | nil => exact .refl
  | cons input earlier ih =>
    exact (ih allowed.2).snoc (allowed.1.extends fc)

/-! What blocks are accepted and what they do to the schedules and to the
irreversible blocks does not depend on the hash functions. -/

structure SameUpToHashes (left right : BlockHeaderState) : Prop where
  blockNum : left.blockNum = right.blockNum
  proposed : left.dposProposedIrreversibleBlocknum = right.dposProposedIrreversibleBlocknum
  lib : left.dposIrreversibleBlocknum = right.dposIrreversibleBlocknum
  activeSchedule : left.activeSchedule = right.activeSchedule
  lastProduced : left.producerToLastProduced = right.producerToLastProduced
  impliedIrb : left.producerToLastImpliedIrb = right.producerToLastImpliedIrb
  confirmCount : left.confirmCount = right.confirmCount
  pendingSchedule : left.pendingSchedule.schedule = right.pendingSchedule.schedule
  scheduleLibNum : left.pendingSchedule.scheduleLibNum = right.pendingSchedule.scheduleLibNum
  timestamp : left.header.timestamp = right.header.timestamp
  producer : left.header.producer = right.header.producer
  confirmed : left.header.confirmed = right.header.confirmed

section

variable (same : SameUpToHashes left right)

include same

theorem SameUpToHashes.calcDposLastIrreversible_eq (name : AccountName) :
    left.calcDposLastIrreversible name = right.calcDposLastIrreversible name := by
  unfold calcDposLastIrreversible
  rw [same.impliedIrb, same.proposed]

theorem SameUpToHashes.promotesPending_eq (lib : Nat) :
    left.promotesPending lib = right.promotesPending lib := by
  unfold promotesPending
  rw [same.pendingSchedule, same.scheduleLibNum]

theorem SameUpToHashes.confirmedRange_eq : left.confirmedRange = right.confirmedRange := by
  unfold confirmedRange
  rw [same.blockNum, same.confirmed]

theorem SameUpToHashes.mayProduce (allowed : right.MayProduce input) : left.MayProduce input where
  slotWidth := allowed.slotWidth
  confirmedWidth := allowed.confirmedWidth
  future := by
    unfold nextSlot
    rw [same.timestamp]
    exact allowed.future
  scheduled := by
    unfold getScheduledProducer
    rw [same.activeSchedule]
    exact allowed.scheduled
  notDoubleConfirmed := by
    unfold checkDoubleConfirm
    rw [same.lastProduced, same.blockNum]
    exact allowed.notDoubleConfirmed
  newProducers := by
    rw [same.calcDposLastIrreversible_eq, same.promotesPending_eq, same.activeSchedule,
      same.pendingSchedule]
    exact allowed.newProducers

theorem SameUpToHashes.makeChild (fc fc' : Primitives) (input : BlockInput) :
    SameUpToHashes (left.makeChild fc input) (right.makeChild fc' input) := by
  have lib := same.calcDposLastIrreversible_eq input.prokey.producerName
  have promotes := same.promotesPending_eq
    (right.calcDposLastIrreversible input.prokey.producerName)
  have grown : left.grownConfirmCount = right.grownConfirmCount := by
    unfold grownConfirmCount requiredConfs
    rw [same.confirmCount, same.activeSchedule]
  constructor <;>
    simp only [BlockHeaderState.makeChild, buildPending, lib, promotes, grown, same.blockNum,
      same.proposed, same.activeSchedule, same.lastProduced, same.impliedIrb, same.pendingSchedule,
      makeBlockHeader, nextPendingSchedule]
  · cases input.newProducers <;> rfl
  · cases input.newProducers with
    | none => exact same.scheduleLibNum
    | some schedule => rfl

theorem SameUpToHashes.makeBranch (fc fc' : Primitives) (inputs : List BlockInput) :
    List.Forall₂ SameUpToHashes (makeBranch fc left inputs) (makeBranch fc' right inputs) ∧
      SameUpToHashes ((makeBranch fc left inputs).headD left)
        ((makeBranch fc' right inputs).headD right) := by
  induction inputs with
  | nil => exact ⟨.nil, same⟩
  | cons input earlier ih =>
    have child := ih.2.makeChild fc fc' input
    exact ⟨.cons child ih.1, child⟩

theorem SameUpToHashes.mayProduceBranch {fc fc' : Primitives}
    (allowed : MayProduceBranch fc' right inputs) : MayProduceBranch fc left inputs := by
  induction inputs with
  | nil => trivial
  | cons input earlier ih =>
    exact ⟨(same.makeBranch fc fc' earlier).2.mayProduce allowed.1, ih allowed.2⟩

end

end BlockHeaderState

theorem NoDoubleConfirmation.congr {left right : List BlockHeaderState}
    (honest : NoDoubleConfirmation left)
    (same : List.Forall₂ SameUpToHashes left right) :
    NoDoubleConfirmation right := by
  have views : left.map (fun block => (block.header.producer, block.confirmedRange)) =
      right.map (fun block => (block.header.producer, block.confirmedRange)) := by
    induction same with
    | nil => rfl
    | cons head _ ih =>
      rw [NoDoubleConfirmation, List.pairwise_cons] at honest
      simp [head.producer, head.confirmedRange_eq, ih honest.2]
  have mapped : (left.map (fun block => (block.header.producer, block.confirmedRange))).Pairwise
      fun newer older => newer.1 = older.1 → Disjoint newer.2 older.2 :=
    List.pairwise_map.mpr honest
  rw [views] at mapped
  exact List.pairwise_map.mp mapped

theorem GenesisState.sameUpToHashes (genesis : GenesisState) (fc fc' : Primitives) :
    (genesis.headerState fc).SameUpToHashes (genesis.headerState fc') := by
  constructor <;> rfl

end CodexRelay.Chain
