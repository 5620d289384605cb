import CodexRelay.Chain.HeaderState.Confirmations

/-!
Contract: how the last irreversible block moves along a branch.

Owns:
- `Bounded`, the invariant behind `LIB ≤ proposed LIB ≤ block number`;
- the counting form of `calc_dpos_last_irreversible`;
- the exact condition under which the LIB never moves backwards. A block that
  promotes a schedule keeps the old entries of retained producers, so the block
  after it may find more than a third of the entries below the LIB. No other
  block can move the LIB backwards;
- that the proposed irreversible block never moves backwards, and that a schedule becomes active
  only when the block that proposed it is irreversible.
-/

namespace CodexRelay.Chain

open Library List AList

variable {fc : Primitives}

variable {state last : BlockHeaderState} {visited : List BlockHeaderState}

namespace BlockHeaderState

/-! ### The order statistic -/

/-- The LIB reaches `bound` exactly when at most a third of the implied blocks,
the next producer's counted with its new value, lie below `bound`. -/
theorem le_calcDposLastIrreversible_iff (nonempty : state.producerToLastImpliedIrb.entries ≠ [])
    (producer : AccountName) (bound : Nat) :
    bound ≤ state.calcDposLastIrreversible producer ↔
      (overriddenValues state.producerToLastImpliedIrb.entries producer
        state.dposProposedIrreversibleBlocknum).countP (· < bound) ≤
          (state.producerToLastImpliedIrb.entries.length - 1) / 3 := by
  have positive := length_pos_of_ne_nil nonempty
  unfold calcDposLastIrreversible
  simp only [overriddenValues_length]
  rw [if_neg (by omega)]
  have inRange : (state.producerToLastImpliedIrb.entries.length - 1) / 3 <
      (overriddenValues state.producerToLastImpliedIrb.entries producer
        state.dposProposedIrreversibleBlocknum).length := by
    rw [overriddenValues_length]
    omega
  obtain ⟨value, found⟩ := nthElement_isSome inRange
  rw [found, Option.getD_some]
  exact le_nthElement_iff found

theorem calcDposLastIrreversible_le (implied : ∀ entry ∈ state.producerToLastImpliedIrb.entries,
      entry.2 ≤ state.dposProposedIrreversibleBlocknum) (producer : AccountName) :
    state.calcDposLastIrreversible producer ≤ state.dposProposedIrreversibleBlocknum := by
  unfold calcDposLastIrreversible
  dsimp only
  split
  · exact Nat.zero_le _
  · refine nthElement_getD_le (fun value member => ?_) (Nat.zero_le _)
    obtain ⟨entry, entryMem, rfl⟩ := mem_map.mp member
    split
    · exact le_rfl
    · exact implied entry entryMem

/-- Producers other than `producer` whose last implied irreversible block is
below the LIB. -/
def laggards (state : BlockHeaderState) (producer : AccountName) : Nat :=
  state.producerToLastImpliedIrb.entries.countP fun entry =>
    entry.1 ≠ producer ∧ entry.2 < state.dposIrreversibleBlocknum

/-- At most a third of the entries lag behind the LIB when `producer` makes the
next block. -/
def KeepsUp (state : BlockHeaderState) (producer : AccountName) : Prop :=
  state.laggards producer ≤ (state.producerToLastImpliedIrb.entries.length - 1) / 3

end BlockHeaderState

/-! ### Bounds -/

structure Bounded (state : BlockHeaderState) : Prop where
  lib : state.dposIrreversibleBlocknum ≤ state.dposProposedIrreversibleBlocknum
  tracked : state.dposProposedIrreversibleBlocknum + state.confirmCount.length ≤ state.blockNum
  implied : ∀ entry ∈ state.producerToLastImpliedIrb.entries,
    entry.2 ≤ state.dposProposedIrreversibleBlocknum
  unimplied : state.producerToLastImpliedIrb.entries = [] → state.dposIrreversibleBlocknum = 0
  known : InitialSchedulePending state ∨
    ∀ key ∈ state.activeSchedule.producers, key.producerName ∈ state.producerToLastImpliedIrb

theorem Bounded.genesis (genesis : GenesisState) : Bounded (genesis.headerState fc) where
  lib := le_rfl
  tracked := Nat.zero_le _
  implied := by
    intro entry member
    cases member
  unimplied := fun _ => rfl
  known := .inl genesis.initialSchedulePending

section Step

variable {parent child : BlockHeaderState} {slot confirmed : Nat} {prokey : ProducerKey}

/-- A block that becomes proposed is later than all proposed before it, since
`confirm_count` only has entries for those. -/
theorem Step.proposed_le (step : Step fc parent slot prokey confirmed child)
    (number : child.blockNum = parent.blockNum + 1)
    (tracked : parent.dposProposedIrreversibleBlocknum + parent.confirmCount.length ≤
      parent.blockNum) :
    parent.dposProposedIrreversibleBlocknum ≤ child.dposProposedIrreversibleBlocknum ∧
      child.dposProposedIrreversibleBlocknum + child.confirmCount.length ≤ child.blockNum := by
  have grown : parent.grownConfirmCount.length ≤ parent.confirmCount.length + 1 := by
    unfold BlockHeaderState.grownConfirmCount
    split_ifs <;> simp
  obtain ⟨cut, length, -, ⟨-, same⟩ | ⟨stop, rfl, inside, -, -, proposed⟩⟩ := step.confirm
  · omega
  · rw [subU32, if_pos (by omega)] at proposed
    omega

theorem Bounded.impliedEntries_step (bounded : Bounded parent)
    (step : Step fc parent slot prokey confirmed child) :
    ∀ entry ∈ child.producerToLastImpliedIrb.entries,
      entry.2 ≤ parent.dposProposedIrreversibleBlocknum := by
  rintro ⟨name, value⟩ member
  have lib := BlockHeaderState.calcDposLastIrreversible_le bounded.implied prokey.producerName
  have existing : ∀ old, parent.producerToLastImpliedIrb.lookup name = some old →
      old ≤ parent.dposProposedIrreversibleBlocknum :=
    fun old found => bounded.implied ⟨name, old⟩ (mem_lookup_iff.mp found)
  have found := mem_lookup_iff.mpr member
  rw [step.impliedIrb_eq] at found
  split at found
  · rw [lookup_rebuildProducerMap] at found
    split at found
    case isFalse => cases found
    case isTrue =>
      obtain rfl := Option.some.inj found
      split
      · exact le_rfl
      · cases old : parent.producerToLastImpliedIrb.lookup name with
        | none => exact step.lib_eq ▸ lib
        | some old' => exact existing old' old
  · by_cases own : name = prokey.producerName
    · rw [own, lookup_insert] at found
      exact (Option.some.inj found).symm.le
    · rw [lookup_insert_ne own] at found
      exact existing value found

section

variable (step : Step fc parent slot prokey confirmed child)

include step

theorem Step.impliedIrb_ne_nil : child.producerToLastImpliedIrb.entries ≠ [] := by
  have member : ∃ name, name ∈ child.producerToLastImpliedIrb := by
    rw [step.impliedIrb_eq]
    split
    case isTrue promotes =>
      obtain ⟨key, keyMem⟩ := exists_mem_of_ne_nil _
        (BlockHeaderState.promotesPending_iff.mp promotes).1
      exact ⟨key.producerName, mem_rebuildProducerMap.mpr (mem_map_of_mem keyMem)⟩
    case isFalse => exact ⟨prokey.producerName, (mem_insert _).mpr (.inl rfl)⟩
  obtain ⟨name, member⟩ := member
  intro empty
  rw [AList.mem_keys, AList.keys, empty] at member
  cases member

theorem Step.impliedIrb_known
    (known : InitialSchedulePending parent ∨ ∀ key ∈ parent.activeSchedule.producers,
      key.producerName ∈ parent.producerToLastImpliedIrb) :
    ∀ key ∈ child.activeSchedule.producers, key.producerName ∈ child.producerToLastImpliedIrb := by
  refine step.active_mem known ?_ ?_
  · intro promotes key member
    rw [step.impliedIrb_eq, if_pos promotes, mem_rebuildProducerMap]
    exact mem_map_of_mem member
  · intro keeps name known
    rw [step.impliedIrb_eq, if_neg keeps, mem_insert]
    exact .inr known

end

theorem Bounded.step (bounded : Bounded parent)
    (step : Step fc parent slot prokey confirmed child)
    (number : child.blockNum = parent.blockNum + 1) : Bounded child where
  lib := by
    rw [step.lib_eq]
    exact (BlockHeaderState.calcDposLastIrreversible_le bounded.implied _).trans
      (step.proposed_le number bounded.tracked).1
  tracked := (step.proposed_le number bounded.tracked).2
  implied := fun entry member =>
    (bounded.impliedEntries_step step entry member).trans (step.proposed_le number bounded.tracked).1
  unimplied := fun empty => absurd empty step.impliedIrb_ne_nil
  known := .inr (step.impliedIrb_known bounded.known)

section

variable (bounded : Bounded parent) (step : Step fc parent slot prokey confirmed child)

include bounded step

/-- A block moves the LIB backwards exactly when too many of the other producers
lag behind it. -/
theorem Bounded.lib_le_iff :
    parent.dposIrreversibleBlocknum ≤ child.dposIrreversibleBlocknum ↔
      parent.KeepsUp prokey.producerName := by
  unfold BlockHeaderState.KeepsUp BlockHeaderState.laggards
  by_cases empty : parent.producerToLastImpliedIrb.entries = []
  · simp [bounded.unimplied empty, empty]
  rw [step.lib_eq, BlockHeaderState.le_calcDposLastIrreversible_iff empty, overriddenValues,
    countP_map]
  have sameCount : List.countP
      ((fun value => decide (value < parent.dposIrreversibleBlocknum)) ∘ fun entry =>
        if entry.1 = prokey.producerName then parent.dposProposedIrreversibleBlocknum
        else entry.2) parent.producerToLastImpliedIrb.entries =
      parent.producerToLastImpliedIrb.entries.countP fun entry =>
        entry.1 ≠ prokey.producerName ∧ entry.2 < parent.dposIrreversibleBlocknum := by
    refine countP_congr fun entry _ => ?_
    have lib := bounded.lib
    by_cases own : entry.1 = prokey.producerName <;> simp [own, lib]
  rw [sameCount]

/-- An order statistic of the stored values has at most a third of them below it. -/
theorem Bounded.keepsUp_of_not_promotes
    (keeps : ¬ parent.promotesPending child.dposIrreversibleBlocknum = true)
    (producer : AccountName) : child.KeepsUp producer := by
  have present : prokey.producerName ∈ parent.producerToLastImpliedIrb := by
    rcases bounded.known with initial | known
    · exact absurd (step.promotes_of_initial initial) keeps
    · exact known prokey step.scheduled_mem
  have nonempty : parent.producerToLastImpliedIrb.entries ≠ [] := by
    intro empty
    rw [AList.mem_keys, AList.keys, empty] at present
    cases present
  have stored := overriddenValues_perm_insert parent.producerToLastImpliedIrb
    parent.dposProposedIrreversibleBlocknum present
  have entries := step.impliedIrb_eq
  rw [if_neg keeps] at entries
  rw [← entries] at stored
  have few := (BlockHeaderState.le_calcDposLastIrreversible_iff nonempty prokey.producerName
    child.dposIrreversibleBlocknum).mp step.lib_eq.le
  rw [stored.countP_eq, countP_map] at few
  have length := stored.length_eq
  rw [overriddenValues_length, length_map] at length
  unfold BlockHeaderState.KeepsUp BlockHeaderState.laggards
  rw [← length]
  refine le_trans (countP_mono_left fun entry _ lagging => ?_) few
  simp only [decide_eq_true_eq] at lagging
  simpa using lagging.2

end

end Step

/-! ### Whole branches -/

/-- The LIB of a block is at least that of its parent, the next in the list. -/
def LibMonotone (states : List BlockHeaderState) : Prop :=
  states.IsChain fun child parent =>
    parent.dposIrreversibleBlocknum ≤ child.dposIrreversibleBlocknum

/-- Whenever a block is built directly on one that promoted a schedule, at most a
third of the entries of the promoted state lag behind its LIB. -/
def PromotionsKeepUp : List BlockHeaderState → Prop
  | child :: parent :: grandparent :: rest =>
    (grandparent.promotesPending parent.dposIrreversibleBlocknum = true →
      parent.KeepsUp child.header.producer) ∧
      PromotionsKeepUp (parent :: grandparent :: rest)
  | _ => True

instance (state : BlockHeaderState) (producer : AccountName) :
    Decidable (state.KeepsUp producer) :=
  inferInstanceAs (Decidable (_ ≤ _))

instance decidablePromotionsKeepUp : DecidablePred PromotionsKeepUp
  | _child :: parent :: grandparent :: rest =>
    have := decidablePromotionsKeepUp (parent :: grandparent :: rest)
    inferInstanceAs (Decidable (_ ∧ _))
  | [] => .isTrue trivial
  | [_] => .isTrue trivial
  | [_, _] => .isTrue trivial

theorem LibMonotone.congr {left right : List BlockHeaderState} (monotone : LibMonotone left)
    (same : List.Forall₂ BlockHeaderState.SameUpToHashes left right) : LibMonotone right := by
  induction same with
  | nil => exact .nil
  | cons head tail ih =>
    cases tail with
    | nil => exact .singleton _
    | cons next rest =>
      rw [LibMonotone, isChain_cons_cons] at monotone ⊢
      rw [← head.lib, ← next.lib]
      exact ⟨monotone.1, ih monotone.2⟩

theorem Bounded.run {genesis : GenesisState}
    (branch : Run (Numbered fc) (genesis.headerState fc) visited last) :
    Bounded last :=
  branch.invariant (Bounded.genesis genesis) fun _ _ bounded taken =>
    let ⟨_, _, _, step⟩ := taken.extended.step
    bounded.step step taken.number

/-- Of two blocks in a row, the second moves the LIB backwards exactly when the
first promoted a schedule that does not keep up. -/
theorem Bounded.lib_le_iff_of_promotes {grandparent parent child : BlockHeaderState}
    (bounded : Bounded grandparent) (first : Numbered fc grandparent parent)
    (second : Extends fc parent child) :
    parent.dposIrreversibleBlocknum ≤ child.dposIrreversibleBlocknum ↔
      (grandparent.promotesPending parent.dposIrreversibleBlocknum = true →
        parent.KeepsUp child.header.producer) := by
  obtain ⟨_, _, _, firstStep⟩ := first.extended.step
  obtain ⟨_, _, _, secondStep⟩ := second.step
  rw [(bounded.step firstStep first.number).lib_le_iff secondStep, secondStep.headerProducer]
  constructor
  · exact fun keepsUp _ => keepsUp
  · intro promoted
    by_cases promotes : grandparent.promotesPending parent.dposIrreversibleBlocknum = true
    · exact promoted promotes
    · exact bounded.keepsUp_of_not_promotes firstStep promotes _

theorem libMonotone_iff {genesis : GenesisState}
    (branch : Run (Numbered fc) (genesis.headerState fc) visited last) :
    LibMonotone (visited ++ [genesis.headerState fc]) ↔
      PromotionsKeepUp (visited ++ [genesis.headerState fc]) := by
  induction branch with
  | refl => exact ⟨fun _ => trivial, fun _ => .singleton _⟩
  | snoc earlier second ih =>
    cases earlier with
    | refl =>
      refine ⟨fun _ => trivial, fun _ => ?_⟩
      exact .cons_cons (Nat.zero_le _) (.singleton _)
    | snoc before first =>
      obtain ⟨rest, split⟩ := before.append_start
      simp only [cons_append, split] at ih ⊢
      rw [LibMonotone, isChain_cons_cons, PromotionsKeepUp]
      exact and_congr ((Bounded.run before).lib_le_iff_of_promotes first second.extended) ih

/-- On every branch from genesis whose numbers fit, the LIB is monotone and bounded
exactly when the promoted schedules keep up. -/
theorem lib_sound_iff_promotionsKeepUp {genesis : GenesisState} {visited : List BlockHeaderState}
    {last : BlockHeaderState} (branch : Run (Extends fc) (genesis.headerState fc) visited last)
    (fits : visited.length + 1 < 2 ^ 32) :
    (LibMonotone (visited ++ [genesis.headerState fc]) ∧
        ∀ state ∈ visited ++ [genesis.headerState fc],
          state.dposIrreversibleBlocknum ≤ state.dposProposedIrreversibleBlocknum ∧
            state.dposProposedIrreversibleBlocknum ≤ state.blockNum) ↔
      PromotionsKeepUp (visited ++ [genesis.headerState fc]) := by
  have numbered := GenesisState.numbered_of_run branch fits
  rw [libMonotone_iff numbered]
  refine and_iff_left fun state member => ?_
  have bounded : Bounded state := by
    obtain ⟨earlier, reached⟩ := numbered.of_mem member
    exact Bounded.run reached
  have tracked := bounded.tracked
  exact ⟨bounded.lib, by omega⟩

/-! ### A schedule that does not keep up -/

def fourProducerGenesis : GenesisState where
  initialProducerList := [⟨1, 1⟩, ⟨2, 2⟩, ⟨3, 3⟩, ⟨4, 4⟩]
  initialTimestamp := 0
  chainId := 0

/-- Blocks 2 to 9, newest first. Producers 1, 2 and 3 confirm each other's blocks
and propose the schedule of 4, which never produced, and 5. Block 8 promotes it
at LIB 3; producer 4 keeps its entry 0. -/
def laggardInputs : List BlockInput :=
  [⟨27, ⟨5, 5⟩, 0, none⟩, ⟨24, ⟨1, 1⟩, 2, none⟩, ⟨18, ⟨3, 3⟩, 2, none⟩, ⟨15, ⟨2, 2⟩, 2, none⟩,
    ⟨12, ⟨1, 1⟩, 2, none⟩, ⟨6, ⟨3, 3⟩, 2, none⟩, ⟨3, ⟨2, 2⟩, 1, some ⟨1, [⟨4, 4⟩, ⟨5, 5⟩]⟩⟩,
    ⟨1, ⟨1, 1⟩, 0, none⟩]

theorem laggardInputs_allowed :
    (fourProducerGenesis.headerState .zero).MayProduceBranch .zero laggardInputs := by
  refine ⟨?_, ?_, ?_, ?_, ?_, ?_, ?_, ?_, trivial⟩
  all_goals exact ⟨by decide, by decide, rfl, rfl, rfl, by decide⟩

/-- Up to the block that promotes the new schedule, nothing is wrong. -/
theorem lib_sound_before_block_nine :
    LibMonotone ((fourProducerGenesis.headerState .zero).makeBranch .zero laggardInputs.tail ++
        [fourProducerGenesis.headerState .zero]) ∧
      ∀ state ∈ (fourProducerGenesis.headerState .zero).makeBranch .zero laggardInputs.tail ++
          [fourProducerGenesis.headerState .zero],
        state.dposIrreversibleBlocknum ≤ state.dposProposedIrreversibleBlocknum ∧
          state.dposProposedIrreversibleBlocknum ≤ state.blockNum :=
  (lib_sound_iff_promotionsKeepUp laggardInputs_allowed.2.run (by decide)).mpr (by decide)

/-- Block 9, by producer 5, moves the LIB from 3 back to 0. -/
theorem lib_regresses_after_promotion :
    ¬ ∃ fc : Primitives, ∀ (genesis : GenesisState) (visited : List BlockHeaderState)
      (last : BlockHeaderState), Run (Extends fc) (genesis.headerState fc) visited last →
        LibMonotone (visited ++ [genesis.headerState fc]) ∧
          ∀ state ∈ visited ++ [genesis.headerState fc],
            state.dposIrreversibleBlocknum ≤ state.dposProposedIrreversibleBlocknum ∧
              state.dposProposedIrreversibleBlocknum ≤ state.blockNum := by
  rintro ⟨fc, claim⟩
  have same := fourProducerGenesis.sameUpToHashes fc .zero
  obtain ⟨monotone, -⟩ := claim _ _ _ (same.mayProduceBranch laggardInputs_allowed).run
  have onBranch := List.IsChain.left_of_append monotone
  have contradiction := LibMonotone.congr onBranch (same.makeBranch fc .zero laggardInputs).1
  revert contradiction
  unfold LibMonotone
  decide

/-! ### Promotions -/

/-- A block proposed the schedule, and was irreversible for a block in which the schedule is
active. -/
def Promoted (visited : List BlockHeaderState) (schedule : ProducerSchedule) : Prop :=
  ∃ proposer ∈ visited, ∃ promoter ∈ visited, proposer.header.newProducers = some schedule ∧
    promoter.activeSchedule = schedule ∧ proposer.blockNum ≤ promoter.dposIrreversibleBlocknum

/-- The schedules of a branch that begins with the schedule `initial`. -/
structure SchedulesProposed (initial : ProducerSchedule) (visited : List BlockHeaderState)
    (last : BlockHeaderState) : Prop where
  pending : visited = [] ∧ InitialSchedulePending last ∨
    last.pendingSchedule.schedule.producers = [] ∨
    ∃ proposer ∈ visited, proposer.header.newProducers = some last.pendingSchedule.schedule ∧
      proposer.blockNum = last.pendingSchedule.scheduleLibNum
  active : last.activeSchedule = initial ∨ Promoted visited last.activeSchedule

theorem SchedulesProposed.extend {initial : ProducerSchedule} {child : BlockHeaderState}
    (proposed : SchedulesProposed initial visited last) (extended : Extends fc last child) :
    SchedulesProposed initial (child :: visited) child := by
  obtain ⟨slot, prokey, confirmed, step⟩ := extended.step
  have schedule := step.activeSchedule_eq
  have before : last.activeSchedule = initial ∨
      Promoted (child :: visited) last.activeSchedule := by
    refine proposed.active.imp_right ?_
    rintro ⟨proposer, member, promoter, promoterMem, named⟩
    exact ⟨proposer, mem_cons_of_mem _ member, promoter, mem_cons_of_mem _ promoterMem, named⟩
  by_cases promotes : last.promotesPending child.dposIrreversibleBlocknum = true
  · rw [if_pos promotes] at schedule
    obtain ⟨nonempty, lib⟩ := BlockHeaderState.promotesPending_iff.mp promotes
    refine ⟨.inr (.inl (step.pendingProducers_of_promotes promotes)), ?_⟩
    rw [schedule]
    rcases proposed.pending with ⟨-, first⟩ | empty | ⟨proposer, member, named, proposedAt⟩
    · rwa [first.1]
    · exact absurd empty nonempty
    · exact .inr ⟨proposer, mem_cons_of_mem _ member, child, mem_cons_self, named, schedule,
        proposedAt.trans_le lib⟩
  · rw [if_neg promotes] at schedule
    refine ⟨.inr ?_, schedule ▸ before⟩
    rw [step.pendingSchedule_eq]
    cases proposal : child.header.newProducers with
    | some schedule => exact .inr ⟨child, mem_cons_self, proposal, rfl⟩
    | none =>
      rw [if_neg promotes]
      refine (proposed.pending.resolve_left fun first =>
        promotes (step.promotes_of_initial first.2)).imp_right ?_
      rintro ⟨proposer, member, named, proposedAt⟩
      exact ⟨proposer, mem_cons_of_mem _ member, named, proposedAt⟩

/-- **Schedules take effect when they are irreversible.** On every branch a schedule other than that
of genesis was proposed by a block that was irreversible when the schedule became active. -/
theorem schedulesProposed_of_branch {genesis : GenesisState}
    (branch : Run (Extends fc) (genesis.headerState fc) visited last) :
    SchedulesProposed (genesis.headerState fc).activeSchedule visited last := by
  induction branch with
  | refl => exact ⟨.inl ⟨rfl, genesis.initialSchedulePending⟩, .inl rfl⟩
  | snoc _ extended ih => exact ih.extend extended

/-- Block 8 makes the schedule of the producers 4 and 5 active, which block 3 proposed. -/
theorem schedulesProposed_of_laggards :
    Promoted ((fourProducerGenesis.headerState .zero).makeBranch .zero laggardInputs)
      ⟨1, [⟨4, 4⟩, ⟨5, 5⟩]⟩ :=
  (schedulesProposed_of_branch laggardInputs_allowed.run).active.resolve_left fun same =>
    absurd (congrArg (·.version) same) (by decide)

theorem proposed_isChain {genesis : GenesisState}
    (branch : Run (Numbered fc) (genesis.headerState fc) visited last) :
    (visited ++ [genesis.headerState fc]).IsChain fun child parent =>
      parent.dposProposedIrreversibleBlocknum ≤ child.dposProposedIrreversibleBlocknum := by
  induction branch with
  | refl => exact .singleton _
  | snoc earlier taken ih =>
    obtain ⟨_, _, _, step⟩ := taken.extended.step
    obtain ⟨rest, split⟩ := earlier.append_start
    rw [cons_append, split]
    rw [split] at ih
    exact .cons_cons (step.proposed_le taken.number (Bounded.run earlier).tracked).1 ih

/-- The proposed irreversible block never moves backwards while the numbers fit. -/
theorem proposed_monotone {genesis : GenesisState}
    (branch : Run (Extends fc) (genesis.headerState fc) visited last)
    (fits : visited.length + 1 < 2 ^ 32) :
    (visited ++ [genesis.headerState fc]).IsChain fun child parent =>
      parent.dposProposedIrreversibleBlocknum ≤ child.dposProposedIrreversibleBlocknum :=
  proposed_isChain (GenesisState.numbered_of_run branch fits)

/-- It is kept also by block 9, which moves the LIB backwards. -/
theorem proposed_monotone_of_laggards :
    ((fourProducerGenesis.headerState .zero).makeBranch .zero laggardInputs ++
      [fourProducerGenesis.headerState .zero]).IsChain fun child parent =>
        parent.dposProposedIrreversibleBlocknum ≤ child.dposProposedIrreversibleBlocknum :=
  proposed_monotone laggardInputs_allowed.run (by decide)

end CodexRelay.Chain
