import CodexRelay.Chain.HeaderState.Branch

/-!
Contract: the life of a producer schedule, from its proposal to its activation.

Owns:
- the proposed schedule in the `global_property_object`, `set_proposed_producers`, and the
  promotion of a proposed schedule to a pending one in `start_block`;
- the runs in which blocks are built, committed, aborted and popped, with the sessions of
  their transactions;
- that the versions agree in all of them.

Does not own: which contract may call `set_proposed_producers`, and the checks of the
intrinsic on the list it is given.

A version is a `uint32_t`, and the one after it wraps in all three places that compute it.
-/

namespace CodexRelay.Chain

open Library List BlockHeaderState PendingBlockHeaderState

variable {slot confirmed : Nat} {h : SignedBlockHeader}

/-- The part of `global_property_object` that is about schedules. -/
structure GlobalPropertyObject where
  proposedScheduleBlockNum : Option Nat := none
  proposedSchedule : ProducerSchedule := {}

/-- `building_block`, with the state of the database and the states to which the open
sessions of transactions return. -/
structure BuildingBlock where
  pendingBlockHeaderState : PendingBlockHeaderState
  newPendingProducerSchedule : Option ProducerSchedule
  gpo : GlobalPropertyObject
  sessions : List GlobalPropertyObject := []

/-- The controller between calls. `ancestors` are the heads and databases to which
`pop_block` returns, newest first. -/
structure ScheduleState where
  head : BlockHeaderState
  gpo : GlobalPropertyObject
  ancestors : List (BlockHeaderState × GlobalPropertyObject) := []
  pending : Option BuildingBlock := none

def GenesisState.scheduleState (fc : Primitives) (genesis : GenesisState) : ScheduleState where
  head := genesis.headerState fc
  gpo := {}

namespace BuildingBlock

def activeProducers (bb : BuildingBlock) : ProducerSchedule :=
  bb.pendingBlockHeaderState.activeSchedule

def pendingProducers (bb : BuildingBlock) : ProducerSchedule :=
  match bb.newPendingProducerSchedule with
  | some schedule => schedule
  | none => bb.pendingBlockHeaderState.prevPendingSchedule.schedule

/-- The schedule that a proposed one has to differ from, and the version after it. -/
def scheduleBefore (bb : BuildingBlock) : ProducerSchedule :=
  if bb.pendingProducers.producers.length = 0 then bb.activeProducers else bb.pendingProducers

/-- `set_proposed_producers`; the result is the new version, or -1. `disallowEmpty` says
whether the feature `disallow_empty_producer_schedule` is activated. -/
def setProposedProducers (bb : BuildingBlock) (headBlockNum : Nat) (disallowEmpty : Bool)
    (producers : List ProducerKey) : Int × BuildingBlock :=
  let curBlockNum := succU32 headBlockNum
  if producers.length = 0 ∧ disallowEmpty then (-1, bb)
  else if bb.gpo.proposedScheduleBlockNum.isSome ∧
      bb.gpo.proposedScheduleBlockNum ≠ some curBlockNum then (-1, bb)
  else if bb.gpo.proposedScheduleBlockNum.isSome ∧
      producers = bb.gpo.proposedSchedule.producers then (-1, bb)
  else if producers = bb.scheduleBefore.producers then (-1, bb)
  else
    let version := succU32 bb.scheduleBefore.version
    (version, { bb with gpo := ⟨some curBlockNum, ⟨version, producers⟩⟩ })

def makeBlockHeader (fc : Primitives) (bb : BuildingBlock) (transactionMroot actionMroot : Digest)
    (newProtocolFeatureActivations : List Digest) : SignedBlockHeader :=
  bb.pendingBlockHeaderState.makeBlockHeader fc transactionMroot actionMroot
    bb.newPendingProducerSchedule newProtocolFeatureActivations

end BuildingBlock

/-- The part of `start_block` that promotes a proposed schedule to a pending one. -/
def promoteProposed (pbhs : PendingBlockHeaderState) (gpo : GlobalPropertyObject) :
    Checked BuildingBlock :=
  match gpo.proposedScheduleBlockNum with
  | some proposedNum =>
    if proposedNum ≤ pbhs.dposIrreversibleBlocknum ∧
        pbhs.prevPendingSchedule.schedule.producers.length = 0 then do
      eosAssert (gpo.proposedSchedule.version = succU32 pbhs.activeScheduleVersion)
        .producerScheduleException "wrong producer schedule version specified"
      return { pendingBlockHeaderState := pbhs
               newPendingProducerSchedule := some gpo.proposedSchedule
               gpo := {} }
    else return ⟨pbhs, none, gpo, []⟩
  | none => return ⟨pbhs, none, gpo, []⟩

/-! ### Steps -/

namespace ScheduleState

/-- The pending state is finished with a header, for a block that this node signs or for one
that somebody signed. -/
inductive Finishes (fc : Primitives) (pending : PendingBlockHeaderState) (h : SignedBlockHeader)
    (child : BlockHeaderState) : Prop where
  | received {validator : FeatureValidator} {skipValidateSignee : Bool}
      (finished : pending.finishNext fc h validator skipValidateSignee = .ok child)
  | produced {validator : FeatureValidator} {signer : Digest → Signature}
      (finished : pending.finishNextSigned fc h validator signer = .ok child)

/-- What can happen to the schedules. A call that throws changes nothing. -/
inductive Step (fc : Primitives) (state : ScheduleState) : ScheduleState → Prop where
  | startBlock {slot confirmed : Nat} {pbhs : PendingBlockHeaderState} {bb : BuildingBlock}
      (idle : state.pending = none) (opened : state.head.next fc slot confirmed = .ok pbhs)
      (started : promoteProposed pbhs state.gpo = .ok bb) :
      Step fc state { state with pending := some bb }
  | setProposedProducers {bb : BuildingBlock} (building : state.pending = some bb)
      (disallowEmpty : Bool) (producers : List ProducerKey) :
      Step fc state { state with
        pending := some (bb.setProposedProducers state.head.blockNum disallowEmpty producers).2 }
  | startSession {bb : BuildingBlock} (building : state.pending = some bb) :
      Step fc state { state with pending := some { bb with sessions := bb.gpo :: bb.sessions } }
  | undoSession {bb : BuildingBlock} {before : GlobalPropertyObject}
      {sessions : List GlobalPropertyObject} (building : state.pending = some bb)
      (opened : bb.sessions = before :: sessions) :
      Step fc state { state with pending := some { bb with gpo := before, sessions } }
  | squashSession {bb : BuildingBlock} {before : GlobalPropertyObject}
      {sessions : List GlobalPropertyObject} (building : state.pending = some bb)
      (opened : bb.sessions = before :: sessions) :
      Step fc state { state with pending := some { bb with sessions } }
  /-- `apply_block` compares the id of a received block with that of the assembled one, so that
  their headers differ in the signature at most. -/
  | commitBlock {bb : BuildingBlock} {transactionMroot actionMroot : Digest}
      {features : List Digest} {h : SignedBlockHeader} {child : BlockHeaderState}
      (building : state.pending = some bb)
      (assembled : h.toBlockHeader =
        (bb.makeBlockHeader fc transactionMroot actionMroot features).toBlockHeader)
      (finished : Finishes fc bb.pendingBlockHeaderState h child) :
      Step fc state ⟨child, bb.gpo, (state.head, state.gpo) :: state.ancestors, none⟩
  | abortBlock : Step fc state { state with pending := none }
  | popBlock {head : BlockHeaderState} {gpo : GlobalPropertyObject}
      {ancestors : List (BlockHeaderState × GlobalPropertyObject)} (idle : state.pending = none)
      (popped : state.ancestors = (head, gpo) :: ancestors) :
      Step fc state ⟨head, gpo, ancestors, none⟩

end ScheduleState

/-! ### The invariant -/

variable {fc : Primitives} {genesis : GenesisState}

def GlobalPropertyObject.ProposesVersion (gpo : GlobalPropertyObject) (version : Nat) : Prop :=
  gpo.proposedScheduleBlockNum ≠ none → gpo.proposedSchedule.version = version

/-- The version after the pending schedule, or after the active one when none is pending. -/
def BlockHeaderState.nextVersion (head : BlockHeaderState) : Nat :=
  if head.pendingSchedule.schedule.producers.length = 0 then succU32 head.activeSchedule.version
  else succU32 head.pendingSchedule.schedule.version

structure VersionsAgree (fc : Primitives) (genesis : GenesisState) (head : BlockHeaderState)
    (gpo : GlobalPropertyObject) : Prop where
  pending : head = genesis.headerState fc ∨ (head.pendingSchedule.schedule.producers ≠ [] →
    head.pendingSchedule.schedule.version = succU32 head.activeSchedule.version)
  proposed : gpo.ProposesVersion head.nextVersion

/-- A block on `head` is being built with the right versions. -/
structure BuildsOn (fc : Primitives) (head : BlockHeaderState) (bb : BuildingBlock) : Prop where
  opened : ∃ slot confirmed, head.next fc slot confirmed = .ok bb.pendingBlockHeaderState
  room : bb.newPendingProducerSchedule ≠ none → head.pendingSchedule.schedule.producers = []
  version : ∀ schedule, bb.newPendingProducerSchedule = some schedule →
    schedule.version = succU32 head.activeSchedule.version
  proposed : ∀ gpo ∈ bb.gpo :: bb.sessions, gpo.ProposesVersion (succU32 bb.scheduleBefore.version)

structure ScheduleState.Consistent (fc : Primitives) (genesis : GenesisState)
    (state : ScheduleState) : Prop where
  head : VersionsAgree fc genesis state.head state.gpo
  ancestors : ∀ ancestor ∈ state.ancestors, VersionsAgree fc genesis ancestor.1 ancestor.2
  building : ∀ bb, state.pending = some bb → BuildsOn fc state.head bb

/-! ### What `next` and `finish_next` do to the schedules -/

section Blocks

variable {head child : BlockHeaderState} {pbhs : PendingBlockHeaderState} {bb : BuildingBlock}
  {gpo : GlobalPropertyObject}

/-- The pending state knows the schedules of the head, and either promotes the pending one or
keeps the active one. -/
structure Opened (head : BlockHeaderState) (pbhs : PendingBlockHeaderState) : Prop where
  prevPending : pbhs.prevPendingSchedule = head.pendingSchedule
  version : pbhs.activeScheduleVersion = head.activeSchedule.version
  promoted : pbhs.wasPendingPromoted = head.promotesPending pbhs.dposIrreversibleBlocknum
  active : pbhs.activeSchedule =
    if pbhs.wasPendingPromoted then head.pendingSchedule.schedule else head.activeSchedule

theorem BlockHeaderState.next_opened (opened : head.next fc slot confirmed = .ok pbhs) :
    Opened head pbhs := by
  obtain ⟨slot, prokey, -, -, rfl⟩ := next_eq_ok opened
  exact ⟨rfl, rfl, rfl, rfl⟩

section

variable (opened : Opened head pbhs) (room : head.pendingSchedule.schedule.producers = [])

include opened room

theorem Opened.not_promoted : pbhs.wasPendingPromoted = false := by
  rw [opened.promoted, ← Bool.not_eq_true, promotesPending_iff]
  exact fun promotes => promotes.1 room

theorem Opened.active_of_room : pbhs.activeSchedule = head.activeSchedule := by
  rw [opened.active, opened.not_promoted room]
  rfl

end

theorem ScheduleState.Finishes.schedules (finished : ScheduleState.Finishes fc pbhs h child) :
    child.activeSchedule = pbhs.activeSchedule ∧
      child.pendingSchedule = pbhs.nextPendingSchedule fc h.newProducers := by
  cases finished with
  | received finished =>
    obtain ⟨-, -, common, pending⟩ := finishNextCore_eq_ok (finishNext_eq_ok finished)
    exact ⟨congrArg (·.activeSchedule) common, pending⟩
  | produced finished =>
    obtain ⟨unsigned, signature, core, rfl⟩ := finishNextSigned_eq_ok finished
    obtain ⟨-, -, common, pending⟩ := finishNextCore_eq_ok core
    exact ⟨congrArg (·.activeSchedule) common, pending⟩

/-! ### One step -/

/-- Without a new pending schedule, proposals follow the schedules of the head. -/
theorem Opened.nextVersion_eq (opened : Opened head pbhs) (sessions : List GlobalPropertyObject) :
    succU32 (⟨pbhs, none, gpo, sessions⟩ : BuildingBlock).scheduleBefore.version =
      head.nextVersion := by
  unfold BuildingBlock.scheduleBefore BuildingBlock.pendingProducers BuildingBlock.activeProducers
    nextVersion
  dsimp only
  rw [opened.prevPending]
  split_ifs with room
  · rw [opened.active_of_room (eq_nil_of_length_eq_zero room)]
  · rfl

theorem VersionsAgree.promoteProposed_spec (agrees : VersionsAgree fc genesis head gpo)
    (ran : head.next fc slot confirmed = .ok pbhs) :
    ∃ bb, promoteProposed pbhs gpo = .ok bb ∧ BuildsOn fc head bb := by
  have opened := next_opened ran
  have kept : BuildsOn fc head ⟨pbhs, none, gpo, []⟩ :=
    { opened := ⟨slot, confirmed, ran⟩
      room := fun proposes => absurd rfl proposes
      version := fun _ proposes => by cases proposes
      proposed := by
        intro other member
        obtain rfl := mem_singleton.mp member
        rw [opened.nextVersion_eq]
        exact agrees.proposed }
  unfold promoteProposed
  cases proposes : gpo.proposedScheduleBlockNum with
  | none => exact ⟨_, rfl, kept⟩
  | some proposedNum =>
    dsimp only
    split_ifs with promotes
    · have room : head.pendingSchedule.schedule.producers = [] := by
        rw [← opened.prevPending]
        exact eq_nil_of_length_eq_zero promotes.2
      have version : gpo.proposedSchedule.version = succU32 head.activeSchedule.version := by
        rw [agrees.proposed (by rw [proposes]; simp), nextVersion, room]
        rfl
      refine ⟨_, sequence_eq_ok.mpr ⟨(), eosAssert_eq_ok.mpr ?_, rfl⟩, ?_⟩
      · rw [version, opened.version]
      · exact
          { opened := ⟨slot, confirmed, ran⟩
            room := fun _ => room
            version := fun schedule isNew => Option.some.inj isNew ▸ version
            proposed := by
              intro other member
              obtain rfl := mem_singleton.mp member
              exact fun proposes => absurd rfl proposes }
    · exact ⟨_, rfl, kept⟩

section

variable (builds : BuildsOn fc head bb)

include builds

theorem BuildsOn.setProposedProducers (headBlockNum : Nat) (disallowEmpty : Bool)
    (producers : List ProducerKey) :
    BuildsOn fc head (bb.setProposedProducers headBlockNum disallowEmpty producers).2 := by
  unfold BuildingBlock.setProposedProducers
  dsimp only
  split_ifs
  · exact builds
  · exact builds
  · exact builds
  · exact builds
  · refine { builds with proposed := ?_ }
    intro gpo member
    rcases mem_cons.mp member with rfl | older
    · exact fun _ => rfl
    · exact builds.proposed gpo (mem_cons_of_mem _ older)

theorem BuildsOn.of_sessions {sessions : List GlobalPropertyObject}
    (subset : ∀ other ∈ gpo :: sessions, other ∈ bb.gpo :: bb.sessions) :
    BuildsOn fc head { bb with gpo, sessions } :=
  { builds with proposed := fun other member => builds.proposed other (subset other member) }

/-- The checks of `_finish_next` do not fail for the header that `finalize_block` makes. -/
theorem BuildsOn.checkHeader_eq (transactionMroot actionMroot : Digest) (features : List Digest) :
    bb.pendingBlockHeaderState.checkHeader
      (bb.makeBlockHeader fc transactionMroot actionMroot features) = .ok () := by
  obtain ⟨slot, confirmed, ran⟩ := builds.opened
  have opened := next_opened ran
  unfold checkHeader
  simp only [sequence_eq_ok, eosAssert_eq_ok, exists_const]
  refine ⟨rfl, rfl, rfl, rfl, rfl, ?_⟩
  have offered : (bb.makeBlockHeader fc transactionMroot actionMroot features).newProducers =
      bb.newPendingProducerSchedule := rfl
  rw [offered]
  cases proposes : bb.newPendingProducerSchedule with
  | none => rfl
  | some schedule =>
    have room := builds.room (by rw [proposes]; simp)
    simp only [sequence_eq_ok, eosAssert_eq_ok, exists_const]
    refine ⟨opened.not_promoted room, ?_, ?_⟩
    · rw [opened.active_of_room room]
      exact builds.version schedule proposes
    · rw [opened.prevPending, room]
      rfl

end

/-- The schedules after a block: a new pending schedule, none after a promotion, or those of
the head. -/
theorem Opened.child_schedules (opened : Opened head pbhs)
    (room : h.newProducers ≠ none → head.pendingSchedule.schedule.producers = [])
    (finished : ScheduleState.Finishes fc pbhs h child) :
    (∃ schedule, h.newProducers = some schedule ∧ child.pendingSchedule.schedule = schedule ∧
      child.activeSchedule = head.activeSchedule) ∨
    (h.newProducers = none ∧ pbhs.wasPendingPromoted = true ∧
      child.pendingSchedule.schedule.producers = [] ∧
      child.activeSchedule = head.pendingSchedule.schedule) ∨
    (h.newProducers = none ∧ pbhs.wasPendingPromoted = false ∧
      child.pendingSchedule.schedule = head.pendingSchedule.schedule ∧
      child.activeSchedule = head.activeSchedule) := by
  obtain ⟨active, pending⟩ := finished.schedules
  rw [active, pending]
  unfold nextPendingSchedule
  cases proposes : h.newProducers with
  | some schedule =>
    exact .inl ⟨schedule, rfl, rfl, opened.active_of_room (room (by rw [proposes]; simp))⟩
  | none =>
    refine .inr ?_
    dsimp only
    rw [opened.active, opened.prevPending]
    cases pbhs.wasPendingPromoted with
    | true => exact .inl ⟨rfl, rfl, rfl, rfl⟩
    | false => exact .inr ⟨rfl, rfl, rfl, rfl⟩

/-- At genesis the initial schedule is pending, and the first block promotes it. -/
theorem Opened.promoted_of_genesis (opened : Opened (genesis.headerState fc) pbhs)
    (nonempty : genesis.initialProducerList ≠ []) : pbhs.wasPendingPromoted = true := by
  rw [opened.promoted, promotesPending_iff]
  exact ⟨nonempty, Nat.zero_le _⟩

theorem BuildsOn.committed (builds : BuildsOn fc head bb)
    (agrees : VersionsAgree fc genesis head gpo)
    (proposes : h.newProducers = bb.newPendingProducerSchedule)
    (finished : ScheduleState.Finishes fc bb.pendingBlockHeaderState h child) :
    VersionsAgree fc genesis child bb.gpo := by
  obtain ⟨slot, confirmed, ran⟩ := builds.opened
  have opened := next_opened ran
  have room : h.newProducers ≠ none → head.pendingSchedule.schedule.producers = [] := by
    rw [proposes]
    exact builds.room
  have proposed := builds.proposed bb.gpo mem_cons_self
  unfold BuildingBlock.scheduleBefore BuildingBlock.pendingProducers
    BuildingBlock.activeProducers at proposed
  rcases opened.child_schedules room finished with
    ⟨schedule, isNew, pending, active⟩ | ⟨isNone, promoted, pending, active⟩ |
      ⟨isNone, kept, pending, active⟩
  · rw [proposes] at isNew
    have pbhsActive := opened.active_of_room (builds.room (by rw [isNew]; simp))
    refine ⟨.inr fun _ => ?_, ?_⟩
    · rw [pending, active]
      exact builds.version schedule isNew
    · rw [isNew, pbhsActive] at proposed
      unfold nextVersion
      rw [pending, active]
      dsimp only at proposed
      split_ifs at proposed ⊢
      · exact proposed
      · exact proposed
  · rw [proposes] at isNone
    have nonempty : head.pendingSchedule.schedule.producers ≠ [] := by
      intro empty
      rw [opened.not_promoted empty] at promoted
      cases promoted
    refine ⟨.inr fun producers => absurd pending producers, ?_⟩
    unfold nextVersion
    rw [isNone] at proposed
    dsimp only at proposed
    rw [opened.prevPending, if_neg (fun empty => nonempty (eq_nil_of_length_eq_zero empty))]
      at proposed
    rw [pending, active]
    exact proposed
  · rw [proposes] at isNone
    have pbhsActive : bb.pendingBlockHeaderState.activeSchedule = head.activeSchedule := by
      rw [opened.active, kept]
      rfl
    refine ⟨.inr fun producers => ?_, ?_⟩
    · rw [pending, active]
      rw [pending] at producers
      rcases agrees.pending with rfl | version
      · rw [opened.promoted_of_genesis producers] at kept
        cases kept
      · exact version producers
    · unfold nextVersion
      rw [isNone] at proposed
      dsimp only at proposed
      rw [opened.prevPending, pbhsActive] at proposed
      rw [pending, active]
      split_ifs at proposed ⊢
      · exact proposed
      · exact proposed

end Blocks

/-! ### Runs -/

namespace ScheduleState

variable {state state' : ScheduleState}

theorem consistent_genesis : (genesis.scheduleState fc).Consistent fc genesis where
  head := ⟨.inl rfl, fun proposes => absurd rfl proposes⟩
  ancestors := by simp [GenesisState.scheduleState]
  building := by simp [GenesisState.scheduleState]

theorem Consistent.building_step (consistent : state.Consistent fc genesis) {bb : BuildingBlock}
    (builds : BuildsOn fc state.head bb) : { state with pending := some bb }.Consistent fc genesis :=
  { consistent with building := fun _ isPending => Option.some.inj isPending ▸ builds }

theorem Consistent.step (consistent : state.Consistent fc genesis) (step : Step fc state state') :
    state'.Consistent fc genesis := by
  cases step with
  | startBlock _ opened started =>
    obtain ⟨bb, ran, builds⟩ := consistent.head.promoteProposed_spec opened
    obtain rfl := Except.ok.inj (ran.symm.trans started)
    exact consistent.building_step builds
  | setProposedProducers building disallowEmpty producers =>
    exact consistent.building_step ((consistent.building _ building).setProposedProducers _ _ _)
  | startSession building =>
    refine consistent.building_step ((consistent.building _ building).of_sessions ?_)
    simp
  | undoSession building opened =>
    refine consistent.building_step ((consistent.building _ building).of_sessions ?_)
    rw [opened]
    exact fun _ member => mem_cons_of_mem _ member
  | squashSession building opened =>
    refine consistent.building_step ((consistent.building _ building).of_sessions ?_)
    rw [opened]
    simp only [mem_cons]
    tauto
  | commitBlock building assembled finished =>
    have builds := consistent.building _ building
    have proposes := congrArg BlockHeader.newProducers assembled
    refine ⟨builds.committed consistent.head proposes finished, ?_, by simp⟩
    intro ancestor member
    rcases mem_cons.mp member with rfl | older
    · exact consistent.head
    · exact consistent.ancestors ancestor older
  | abortBlock => exact { consistent with building := by simp }
  | popBlock _ popped =>
    have agrees := consistent.ancestors
    rw [popped] at agrees
    exact ⟨agrees _ mem_cons_self,
      fun ancestor older => agrees ancestor (mem_cons_of_mem _ older), by simp⟩

/-- The checks on schedules pass, and promotions raise the version by one. -/
structure VersionsRight (fc : Primitives) (genesis : GenesisState) (state : ScheduleState) :
    Prop where
  /-- "wrong producer schedule version specified" of `start_block` is not thrown. -/
  starts : ∀ slot confirmed pbhs, state.head.next fc slot confirmed = .ok pbhs →
    ∃ bb, promoteProposed pbhs state.gpo = .ok bb
  /-- The assembled header passes the checks of `_finish_next`. -/
  finishes : ∀ bb, state.pending = some bb → ∀ transactionMroot actionMroot features,
    bb.pendingBlockHeaderState.checkHeader
      (bb.makeBlockHeader fc transactionMroot actionMroot features) = .ok ()
  initial : state.head = genesis.headerState fc →
    ∀ slot confirmed pbhs, state.head.next fc slot confirmed = .ok pbhs →
      pbhs.wasPendingPromoted = true ∧ pbhs.activeSchedule = ⟨0, genesis.initialProducerList⟩
  promotes : state.head ≠ genesis.headerState fc →
    ∀ slot confirmed pbhs, state.head.next fc slot confirmed = .ok pbhs →
      pbhs.wasPendingPromoted = true →
        pbhs.activeSchedule.version = succU32 state.head.activeSchedule.version

theorem Consistent.versionsRight (consistent : state.Consistent fc genesis) :
    state.VersionsRight fc genesis where
  starts := by
    intro slot confirmed pbhs opened
    obtain ⟨bb, started, -⟩ := consistent.head.promoteProposed_spec opened
    exact ⟨bb, started⟩
  finishes := fun bb building => (consistent.building bb building).checkHeader_eq
  initial := by
    intro isGenesis slot confirmed pbhs ran
    rw [isGenesis] at ran
    have opened := next_opened ran
    obtain ⟨_, prokey, scheduled, -, -⟩ := next_eq_ok ran
    have nonempty : genesis.initialProducerList ≠ [] := by
      have member := mem_of_getScheduledProducer scheduled
      exact ne_nil_of_mem member
    have promoted := opened.promoted_of_genesis nonempty
    refine ⟨promoted, ?_⟩
    rw [opened.active, promoted]
    rfl
  promotes := by
    intro notGenesis slot confirmed pbhs ran promoted
    have opened := next_opened ran
    have nonempty : state.head.pendingSchedule.schedule.producers ≠ [] := by
      intro empty
      rw [opened.not_promoted empty] at promoted
      cases promoted
    rw [opened.active, promoted]
    exact consistent.head.pending.resolve_left notGenesis nonempty

/-- **The versions of schedules are consistent** in every run of the controller, whatever is
proposed, undone, aborted and popped. -/
theorem versionsRight_of_run {visited : List ScheduleState} {last : ScheduleState}
    (run : Run (Step fc) (genesis.scheduleState fc) visited last) :
    last.VersionsRight fc genesis := by
  have consistent : last.Consistent fc genesis := by
    induction run with
    | refl => exact consistent_genesis
    | snoc _ step ih => exact ih.step step
  exact consistent.versionsRight

def loneGenesis : GenesisState := ⟨[⟨1, 1⟩], 0, 0⟩

def proposing : BuildingBlock :=
  (BuildingBlock.setProposedProducers
    ⟨(loneGenesis.headerState .zero).buildPending .zero 1 ⟨1, 1⟩ 0, none, {}, []⟩ 1 false
    [⟨1, 1⟩, ⟨2, 2⟩]).2

/-- It is committed with version 1 proposed. -/
theorem versionsRight_of_first_proposal :
    ∃ last : ScheduleState, last.head.blockNum = 2 ∧ last.gpo.proposedSchedule.version = 1 ∧
      last.VersionsRight .zero loneGenesis := by
  let start : ScheduleState := loneGenesis.scheduleState .zero
  let pbhs := (loneGenesis.headerState .zero).buildPending .zero 1 ⟨1, 1⟩ 0
  have opened : (loneGenesis.headerState .zero).next .zero 1 0 = .ok pbhs := rfl
  have started : Step .zero start { start with pending := some ⟨pbhs, none, {}, []⟩ } :=
    .startBlock rfl opened rfl
  have proposed : Step .zero { start with pending := some ⟨pbhs, none, {}, []⟩ }
      { start with pending := some proposing } :=
    .setProposedProducers rfl false [⟨1, 1⟩, ⟨2, 2⟩]
  have finished : ∃ child : BlockHeaderState, child.blockNum = 2 ∧
      Finishes .zero pbhs (proposing.makeBlockHeader .zero 0 0 []) child :=
    ⟨_, rfl, @Finishes.received _ _ _ _ (fun _ _ _ => .ok ()) true rfl⟩
  obtain ⟨child, number, finished⟩ := finished
  have committed : Step .zero { start with pending := some proposing }
      ⟨child, proposing.gpo, [(start.head, start.gpo)], none⟩ :=
    .commitBlock rfl rfl finished
  exact ⟨_, number, rfl, versionsRight_of_run (.snoc (.snoc (.snoc .refl started) proposed) committed)⟩

end ScheduleState

end CodexRelay.Chain
