import CodexRelay.Chain.HeaderState.Irreversibility

/-!
Contract: how a header state represents its branch.

Owns:
- `Remembered`, the invariant that `producer_to_last_produced` does not forget a
  block in a way that lets its producer confirm it again, whatever schedules are
  promoted;
- the exact condition under which the check of `next` prevents overlapping
  ranges: the 32-bit difference in it must not wrap;
- the vector operations of `next` on `confirm_count`, with their bounds, and that
  they compute what the model of `next` says;
- the block that every entry of `confirm_count` stands for;
- the producers that have an entry in the two producer maps.
-/

namespace CodexRelay.Chain

open Library List AList BlockHeaderState

variable {fc : Primitives}

/-- What `state` knows about an earlier block. A producer without an entry is not
scheduled, and the schedule that may bring it back is promoted at a LIB at or
above the block, which the producer then gets as its entry. -/
def RemembersBlock (state block : BlockHeaderState) : Prop :=
  match state.producerToLastProduced.lookup block.header.producer with
  | some lastProduced => block.blockNum ≤ lastProduced
  | none => state.pendingSchedule.schedule.producers ≠ [] →
      block.blockNum ≤ state.pendingSchedule.scheduleLibNum

structure Remembered (visited : List BlockHeaderState) (last : BlockHeaderState) : Prop where
  numbered : ∀ block ∈ visited, block.blockNum ≤ last.blockNum
  blocks : ∀ block ∈ visited, RemembersBlock last block
  active : visited = [] ∧ InitialSchedulePending last ∨
    ∀ key ∈ last.activeSchedule.producers, key.producerName ∈ last.producerToLastProduced

section Step

variable {parent child : BlockHeaderState} {visited : List BlockHeaderState}
  {slot confirmed : Nat} {prokey : ProducerKey}

theorem Step.lastProduced_known (step : Step fc parent slot prokey confirmed child)
    (known : InitialSchedulePending parent ∨ ∀ key ∈ parent.activeSchedule.producers,
      key.producerName ∈ parent.producerToLastProduced) :
    ∀ key ∈ child.activeSchedule.producers, key.producerName ∈ child.producerToLastProduced := by
  refine step.active_mem known ?_ ?_
  · intro promotes key member
    rw [step.lastProduced_eq, if_pos promotes, mem_insert, mem_rebuildProducerMap]
    exact .inr (mem_map_of_mem member)
  · intro keeps name known
    rw [step.lastProduced_eq, if_neg keeps, mem_insert]
    exact .inr known

variable (taken : Step fc parent slot prokey confirmed child)
  (number : child.blockNum = parent.blockNum + 1)

include taken number

theorem RemembersBlock.step {block : BlockHeaderState} (remembers : RemembersBlock parent block)
    (older : block.blockNum ≤ parent.blockNum) : RemembersBlock child block := by
  unfold RemembersBlock at remembers ⊢
  rw [taken.lastProduced_eq]
  by_cases own : block.header.producer = prokey.producerName
  · rw [own, lookup_insert]
    change block.blockNum ≤ child.blockNum
    omega
  rw [lookup_insert_ne own]
  by_cases promotes : parent.promotesPending child.dposIrreversibleBlocknum = true
  · obtain ⟨pending, reached⟩ := BlockHeaderState.promotesPending_iff.mp promotes
    rw [if_pos promotes, lookup_rebuildProducerMap, if_neg own]
    split_ifs with scheduled
    · cases found : parent.producerToLastProduced.lookup block.header.producer with
      | some lastProduced =>
        rw [found] at remembers
        exact remembers
      | none =>
        rw [found] at remembers
        exact (remembers pending).trans reached
    · intro nonempty
      exact absurd (taken.pendingProducers_of_promotes promotes) nonempty
  · rw [if_neg promotes]
    cases found : parent.producerToLastProduced.lookup block.header.producer with
    | some lastProduced =>
      rw [found] at remembers
      exact remembers
    | none =>
      rw [found] at remembers
      intro nonempty
      rcases taken.pendingSchedule_of_not_promotes promotes with same | proposed
      · rw [same] at nonempty ⊢
        exact remembers nonempty
      · omega

theorem Remembered.step (remembered : Remembered visited parent) :
    Remembered (child :: visited) child where
  numbered := by
    intro block member
    rcases mem_cons.mp member with rfl | older
    · exact le_rfl
    · have := remembered.numbered block older
      omega
  blocks := by
    intro block member
    rcases mem_cons.mp member with rfl | older
    · unfold RemembersBlock
      rw [taken.lastProduced_eq, taken.headerProducer, lookup_insert]
    · exact (remembered.blocks block older).step taken number (remembered.numbered block older)
  active := .inr (taken.lastProduced_known (remembered.active.imp_left (·.2)))

/-- A block shares no number with an earlier block of its producer exactly when
it confirms no more blocks than there are numbers. -/
theorem Remembered.disjoint_iff (remembered : Remembered visited parent) {older : BlockHeaderState}
    (member : older ∈ visited) (same : child.header.producer = older.header.producer) :
    Disjoint child.confirmedRange older.confirmedRange ↔
      child.header.confirmed ≤ child.blockNum := by
  have before := remembered.numbered older member
  constructor
  · intro disjoint
    by_contra wraps
    have inChild : (older.blockNum : ℤ) ∈ child.confirmedRange := by
      rw [mem_confirmedRange]
      omega
    have inOlder : (older.blockNum : ℤ) ∈ older.confirmedRange := by
      rw [mem_confirmedRange]
      omega
    exact Set.disjoint_left.mp disjoint inChild inOlder
  · intro fits
    have known : prokey.producerName ∈ parent.producerToLastProduced := by
      rcases remembered.active with ⟨fresh, -⟩ | active
      · simp [fresh] at member
      · exact active prokey taken.scheduled_mem
    obtain ⟨lastProduced, found⟩ := Option.isSome_iff_exists.mp (lookup_isSome.mpr known)
    -- The producer's last block lies below the range, and `older` is no later.
    have remembers := remembered.blocks older member
    unfold RemembersBlock at remembers
    rw [← same, taken.headerProducer, found] at remembers
    change older.blockNum ≤ lastProduced at remembers
    have checked := taken.notDoubleConfirmed
    unfold checkDoubleConfirm at checked
    rw [found, eosAssert_eq_ok, subU32, ← taken.blockNum_eq, ← taken.headerConfirmed, if_pos fits]
      at checked
    unfold confirmedRange
    rw [Set.disjoint_left]
    intro num inChild inOlder
    rw [Set.mem_ofPred_eq] at inChild inOlder
    omega

end Step

/-- The later of two blocks of one producer confirms at most as many blocks as
its own number. -/
def NoWrap (blocks : List BlockHeaderState) : Prop :=
  blocks.Pairwise fun newer older => newer.header.producer = older.header.producer →
    newer.header.confirmed ≤ newer.blockNum

theorem Remembered.run {genesis : GenesisState} {visited : List BlockHeaderState}
    {last : BlockHeaderState} (branch : Run (Numbered fc) (genesis.headerState fc) visited last) :
    Remembered visited last :=
  branch.history ⟨by simp, by simp, .inl ⟨rfl, genesis.initialSchedulePending⟩⟩
    fun _ _ _ remembered taken =>
      let ⟨_, _, _, step⟩ := taken.extended.step
      remembered.step step taken.number

/-- On every branch from genesis whose numbers fit, the confirmed ranges of each
producer are disjoint exactly when the check of `next` never wraps. -/
theorem noDoubleConfirmation_iff_noWrap {genesis : GenesisState} {visited : List BlockHeaderState}
    {last : BlockHeaderState} (branch : Run (Extends fc) (genesis.headerState fc) visited last)
    (fits : visited.length + 1 < 2 ^ 32) :
    NoDoubleConfirmation visited ↔ NoWrap visited := by
  have numbered := GenesisState.numbered_of_run branch fits
  clear branch fits
  induction numbered with
  | refl => exact ⟨fun _ => .nil, fun _ => .nil⟩
  | snoc earlier taken ih =>
    obtain ⟨_, _, _, step⟩ := taken.extended.step
    rw [NoDoubleConfirmation, NoWrap, pairwise_cons, pairwise_cons]
    refine and_congr (forall₂_congr fun older member => ?_) ih
    exact forall_congr' fun same =>
      (Remembered.run earlier).disjoint_iff step taken.number member same

def soleProducerGenesis : GenesisState where
  initialProducerList := [⟨1, 1⟩]
  initialTimestamp := 0
  chainId := 0

/-- Two blocks, the second of which confirms `confirmed` earlier ones. -/
def soleProducerInputs (confirmed : Nat) : List BlockInput :=
  [⟨2, ⟨1, 1⟩, confirmed, none⟩, ⟨1, ⟨1, 1⟩, 0, none⟩]

theorem noDoubleConfirmation_of_sole_producer : NoDoubleConfirmation
      ((soleProducerGenesis.headerState .zero).makeBranch .zero (soleProducerInputs 0)) := by
  have allowed : (soleProducerGenesis.headerState .zero).MayProduceBranch .zero
      (soleProducerInputs 0) :=
    ⟨⟨by decide, by decide, rfl, rfl, rfl, by simp⟩,
      ⟨by decide, by decide, rfl, rfl, rfl, by simp⟩, trivial⟩
  refine (noDoubleConfirmation_iff_noWrap allowed.run (by decide)).mpr ?_
  unfold NoWrap
  decide

/-- A hundred confirmations at block 3 wrap the check and reach block 2 again. -/
theorem double_confirmation_of_wrap :
    ¬ ∃ fc : Primitives, ∀ (genesis : GenesisState) (visited : List BlockHeaderState)
      (last : BlockHeaderState), Run (Extends fc) (genesis.headerState fc) visited last →
        NoDoubleConfirmation visited := by
  rintro ⟨fc, claim⟩
  have allowed : (soleProducerGenesis.headerState .zero).MayProduceBranch .zero
      (soleProducerInputs 100) :=
    ⟨⟨by decide, by decide, rfl, rfl, rfl, by simp⟩,
      ⟨by decide, by decide, rfl, rfl, rfl, by simp⟩, trivial⟩
  have same := soleProducerGenesis.sameUpToHashes fc .zero
  have honest := (claim _ _ _ (same.mayProduceBranch allowed).run).congr
    (same.makeBranch fc .zero (soleProducerInputs 100)).1
  rw [soleProducerInputs, makeBranch, NoDoubleConfirmation, pairwise_cons] at honest
  have disjoint := honest.1 _ (mem_cons_self ..) rfl
  exact Set.disjoint_left.mp disjoint (by decide : (2 : ℤ) ∈ _) (by decide)

variable {start parent child last : BlockHeaderState} {visited : List BlockHeaderState}
  {slot confirmed : Nat} {prokey : ProducerKey}

/-! ### The vector -/

/-- `memcpy` or `memmove` of `count` bytes, from `offset` in `source` to the front
of `target`. A copy that leaves one of the vectors is not defined. -/
def copyToFront (target source : List Nat) (offset count : Nat) : Option (List Nat) :=
  if offset + count ≤ source.length ∧ count ≤ target.length then
    some ((source.drop offset).take count ++ target.drop count)
  else none

/-- The confirmation loop of `next` on the vector itself, which it cuts when an
entry becomes zero. -/
def confirmInPlace (confirmCount : List Nat) : (remaining blocksToConfirm : Nat) → Option (List Nat)
  | 0, _ => some confirmCount
  | _ + 1, 0 => some confirmCount
  | index + 1, blocksToConfirm + 1 =>
    if index < confirmCount.length then
      let confirmCount := confirmCount.modify index decrementU8
      if confirmCount[index]? = some 0 then
        if index = confirmCount.length - 1 then some []
        else
          (copyToFront confirmCount confirmCount (index + 1) (confirmCount.length - index - 1)).map
            (·.take (confirmCount.length - index - 1))
      else confirmInPlace confirmCount index blocksToConfirm
    else none

namespace BlockHeaderState

/-- The vector after `resize` and, when it was full, `memcpy`. -/
def resizedConfirmCount (state : BlockHeaderState) : Option (List Nat) :=
  let size := state.confirmCount.length
  if size < maximumTrackedDposConfirmations then some (state.confirmCount ++ [0])
  else copyToFront (replicate size 0) state.confirmCount 1 (size - 1)

/-- What `next` does to the vector; `back()` of an empty one is not defined. -/
def confirmCountInPlace (state : BlockHeaderState) (confirmed : Nat) : Option (List Nat) := do
  let resized ← state.resizedConfirmCount
  if resized = [] then none
  else
    let grown := resized.set (resized.length - 1) (state.requiredConfs % 2 ^ 8)
    confirmInPlace grown grown.length (confirmed + 1)

end BlockHeaderState

theorem confirmInPlace_eq_some {confirmCount : List Nat} {remaining blocksToConfirm : Nat}
    (inside : remaining ≤ confirmCount.length) :
    confirmInPlace confirmCount remaining blocksToConfirm =
      some (match (confirmBlocks confirmCount remaining blocksToConfirm).2 with
        | some index => (confirmBlocks confirmCount remaining blocksToConfirm).1.drop (index + 1)
        | none => (confirmBlocks confirmCount remaining blocksToConfirm).1) := by
  fun_induction confirmBlocks confirmCount remaining blocksToConfirm with
  | case1 => rfl
  | case2 => rfl
  | case3 confirmCount index blocks decremented zero =>
    have size : decremented.length = confirmCount.length := by simp [decremented]
    rw [confirmInPlace, if_pos (Nat.lt_of_succ_le inside)]
    change (if decremented[index]? = some 0 then _ else _) = some (decremented.drop (index + 1))
    rw [if_pos zero]
    change (if index = decremented.length - 1 then some [] else
      (copyToFront decremented decremented (index + 1) (decremented.length - index - 1)).map _) = _
    by_cases last : index = decremented.length - 1
    · rw [if_pos last, drop_eq_nil_of_le (by omega)]
    · have bytes : (decremented.drop (index + 1)).length = decremented.length - index - 1 := by
        rw [length_drop]
        omega
      rw [if_neg last, copyToFront, if_pos ⟨by omega, by omega⟩, Option.map_some, ← bytes,
        take_length, take_left]
  | case4 confirmCount index blocks decremented nonzero ih =>
    have size : decremented.length = confirmCount.length := by simp [decremented]
    rw [confirmInPlace, if_pos (Nat.lt_of_succ_le inside)]
    change (if decremented[index]? = some 0 then _ else _) = _
    rw [if_neg nonzero]
    exact ih (by omega)

/-- No copy or move leaves a vector, whatever the block confirms. -/
theorem BlockHeaderState.confirmCountInPlace_eq_some (state : BlockHeaderState) :
    state.confirmCountInPlace confirmed =
      some (state.buildPending fc slot prokey confirmed).confirmCount := by
  have resized : state.resizedConfirmCount =
      some ((if state.confirmCount.length < maximumTrackedDposConfirmations then
        state.confirmCount else state.confirmCount.drop 1) ++ [0]) := by
    unfold resizedConfirmCount
    dsimp only
    split_ifs with room
    · rfl
    · have full : 0 < state.confirmCount.length := by
        unfold maximumTrackedDposConfirmations at room
        omega
      rw [copyToFront, if_pos ⟨by omega, by simp⟩, take_of_length_le (by simp), drop_replicate,
        Nat.sub_sub_self full, replicate_one]
  unfold confirmCountInPlace
  rw [resized, Option.bind_eq_bind, Option.bind_some, if_neg (by simp)]
  rw [length_append, length_singleton, Nat.add_sub_cancel, set_append_right _ _ le_rfl,
    Nat.sub_self, set_cons_zero]
  exact confirmInPlace_eq_some le_rfl

/-! ### What its entries stand for -/

structure Represents (state : BlockHeaderState) : Prop where
  size : state.confirmCount.length ≤ maximumTrackedDposConfirmations
  positive : ∀ entry ∈ state.confirmCount, 0 < entry
  proposed : state.dposProposedIrreversibleBlocknum + state.confirmCount.length ≤ state.blockNum

theorem Represents.grown (represents : Represents parent)
    (small : parent.activeSchedule.producers.length ≤ maxProducers) :
    parent.grownConfirmCount.length ≤ maximumTrackedDposConfirmations ∧
      ∀ entry ∈ parent.grownConfirmCount, 0 < entry := by
  have size := represents.size
  have required : 0 < parent.requiredConfs % 2 ^ 8 := by
    unfold requiredConfs
    unfold maxProducers at small
    omega
  unfold grownConfirmCount
  constructor
  · rw [length_append, length_singleton]
    split_ifs with room
    · exact room
    · rw [length_drop]
      unfold maximumTrackedDposConfirmations at *
      omega
  · intro entry member
    rcases mem_append.mp member with old | new
    · refine represents.positive entry ?_
      split_ifs at old
      · exact old
      · exact mem_of_mem_drop old
    · rwa [mem_singleton.mp new]

/-- The loop stops at the first entry that becomes zero, and the cut removes it. -/
theorem Step.confirmCount_pos (step : Step fc parent slot prokey confirmed child)
    (grown : ∀ entry ∈ parent.grownConfirmCount, 0 < entry) :
    ∀ entry ∈ child.confirmCount, 0 < entry := by
  intro entry member
  obtain ⟨index, found⟩ := mem_iff_getElem?.mp member
  obtain ⟨cut, -, effect, -⟩ := step.confirm
  obtain ⟨old, present, changed, nonzero⟩ := effect index entry found
  split_ifs at changed with reach
  · exact Nat.pos_of_ne_zero (nonzero reach)
  · exact changed ▸ grown old (mem_of_getElem? present)

theorem Represents.step (represents : Represents parent)
    (small : parent.activeSchedule.producers.length ≤ maxProducers)
    (step : Step fc parent slot prokey confirmed child)
    (number : child.blockNum = parent.blockNum + 1) : Represents child where
  size := by
    obtain ⟨cut, length, -⟩ := step.confirm
    exact le_trans (by omega) (represents.grown small).1
  positive := step.confirmCount_pos (represents.grown small).2
  proposed := (step.proposed_le number represents.proposed).2

section

variable (fresh : start.confirmCount = [])
  (proposed : start.dposProposedIrreversibleBlocknum ≤ start.blockNum)
  (small : ∀ state ∈ visited ++ [start], state.activeSchedule.producers.length ≤ maxProducers)

include fresh proposed small

theorem Represents.run (branch : Run (Numbered fc) start visited last) : Represents last := by
  induction branch with
  | refl => exact ⟨by simp [fresh], by simp [fresh], by simpa [fresh] using proposed⟩
  | snoc earlier taken ih =>
    obtain ⟨_, _, _, step⟩ := taken.extended.step
    refine (ih fun state member => small state (mem_cons_of_mem _ member)).step ?_ step taken.number
    exact small _ (mem_cons_of_mem _ (Tracked.run fresh earlier).lastMem)

/-- Every entry of `confirm_count` is positive and stands for one of the blocks
after the proposed irreversible one, the last entry for the state's own block. -/
theorem confirmCount_represents_blocks (branch : Run (Extends fc) start visited last)
    (fits : start.blockNum + visited.length < 2 ^ 32) :
    last.confirmCount.length ≤ maximumTrackedDposConfirmations ∧
      (∀ index entry, last.confirmCount[index]? = some entry →
        0 < entry ∧ ∃ parent ∈ visited ++ [start],
          parent.blockNum + 1 + (last.confirmCount.length - 1 - index) = last.blockNum ∧
            last.dposProposedIrreversibleBlocknum + 1 ≤ parent.blockNum + 1 ∧
              Counts visited parent entry) ∧
      ∀ slot prokey confirmed, last.confirmCountInPlace confirmed =
        some (last.buildPending fc slot prokey confirmed).confirmCount := by
  have numbered := (numbered_of_run branch fits).1
  have represents := Represents.run fresh proposed small numbered
  refine ⟨represents.size, fun index entry found => ?_,
    fun _ _ _ => last.confirmCountInPlace_eq_some⟩
  obtain ⟨parent, member, position, counts⟩ := (Tracked.run fresh numbered).entries index entry found
  have inside := (List.getElem?_eq_some_iff.mp found).1
  have tracked := represents.proposed
  exact ⟨represents.positive entry (mem_of_getElem? found), parent, member, by omega, by omega,
    counts⟩

end

theorem confirmCount_represents_blocks_of_two_producers :
    ∃ last ∈ twoProducerBranch, last.confirmCount = [1] ∧
      last.confirmCount.length ≤ maximumTrackedDposConfirmations :=
  ⟨_, mem_cons_self, rfl, (confirmCount_represents_blocks rfl (by decide) (by decide)
    twoProducerBranch_allowed.run (by decide)).1⟩

/-- A start that proposes a block after itself. No block leads to such a state. -/
def aheadOfItself : BlockHeaderState :=
  { twoProducerGenesis.headerState .zero with dposProposedIrreversibleBlocknum := 100 }

theorem entry_below_proposed_of_aheadOfItself :
    ¬ ∀ (start last : BlockHeaderState) (visited : List BlockHeaderState),
      start.confirmCount = [] →
        (∀ state ∈ visited ++ [start], state.activeSchedule.producers.length ≤ maxProducers) →
          Run (Extends .zero) start visited last →
            ∀ index entry, last.confirmCount[index]? = some entry →
              last.dposProposedIrreversibleBlocknum + 1 ≤
                last.blockNum - (last.confirmCount.length - 1 - index) := by
  intro claim
  have allowed : aheadOfItself.MayProduceBranch .zero [⟨1, ⟨1, 1⟩, 0, none⟩] :=
    ⟨⟨by decide, by decide, rfl, rfl, rfl, by simp⟩, trivial⟩
  exact absurd (claim _ _ _ rfl (by decide) allowed.run 0 1 rfl) (by decide)

/-! ### The producer maps -/

namespace BlockHeaderState

/-- The names in the active schedule, each once. -/
def activeNames (state : BlockHeaderState) : List AccountName :=
  (state.activeSchedule.producers.map (·.producerName)).dedup

/-- The implied irreversible block of a producer, where the next producer counts
with the proposed one. -/
def impliedIrbOf (state : BlockHeaderState) (producerOfNextBlock name : AccountName) : Nat :=
  if name = producerOfNextBlock then state.dposProposedIrreversibleBlocknum
  else (state.producerToLastImpliedIrb.lookup name).getD 0

end BlockHeaderState

/-- A promotion rebuilds the map from the names it promotes; any other block adds
its producer, who is scheduled. -/
theorem Step.mem_activeNames (step : Step fc parent slot prokey confirmed child)
    (known : InitialSchedulePending parent ∨
      ∀ name ∈ parent.producerToLastImpliedIrb, name ∈ parent.activeNames) :
    ∀ name ∈ child.producerToLastImpliedIrb, name ∈ child.activeNames := by
  intro name member
  unfold activeNames at known ⊢
  rw [step.impliedIrb_eq] at member
  rw [step.activeSchedule_eq]
  split at member
  case isTrue promotes =>
    rw [if_pos promotes]
    exact mem_dedup.mpr (mem_rebuildProducerMap.mp member)
  case isFalse keeps =>
    rw [if_neg keeps]
    rcases (AList.mem_insert _).mp member with rfl | old
    · exact mem_dedup.mpr (mem_map_of_mem step.scheduled_mem)
    · exact (known.resolve_left fun initial => keeps (step.promotes_of_initial initial)) name old

/-- The order statistic of a map whose keys are the active names. -/
theorem BlockHeaderState.calcDposLastIrreversible_eq {state : BlockHeaderState}
    (keys : ∀ name, name ∈ state.producerToLastImpliedIrb ↔ name ∈ state.activeNames)
    (producer : AccountName) :
    state.calcDposLastIrreversible producer =
      (nthElement ((state.activeNames.length - 1) / 3)
        (state.activeNames.map (state.impliedIrbOf producer))).getD 0 := by
  have names : state.producerToLastImpliedIrb.keys.Perm state.activeNames :=
    (perm_ext_iff_of_nodup state.producerToLastImpliedIrb.keys_nodup (nodup_dedup _)).mpr keys
  have values : overriddenValues state.producerToLastImpliedIrb.entries producer
      state.dposProposedIrreversibleBlocknum =
        state.producerToLastImpliedIrb.keys.map (state.impliedIrbOf producer) := by
    unfold overriddenValues AList.keys List.keys
    rw [map_map]
    refine map_congr_left fun entry member => ?_
    have found := mem_lookup_iff.mpr member
    simp [impliedIrbOf, Option.mem_def.mp found]
  have same := names.map (state.impliedIrbOf producer)
  unfold calcDposLastIrreversible
  simp only [values]
  rw [nthElement_perm same, same.length_eq, length_map]
  split_ifs with none
  · rw [eq_nil_of_length_eq_zero none]
    rfl
  · rfl

/-- After genesis the producers with an implied irreversible block are exactly the
active ones, and all of these have a last produced block; the LIB is an order
statistic over the active producers. -/
theorem producerMaps_match_schedule {genesis : GenesisState}
    (branch : Run (Extends fc) (genesis.headerState fc) visited last) :
    ∀ state ∈ visited,
      (∀ name, name ∈ state.producerToLastImpliedIrb ↔ name ∈ state.activeNames) ∧
        (∀ name ∈ state.activeNames, name ∈ state.producerToLastProduced) ∧
        ∀ producer, state.calcDposLastIrreversible producer =
          (nthElement ((state.activeNames.length - 1) / 3)
            (state.activeNames.map (state.impliedIrbOf producer))).getD 0 := by
  induction branch with
  | refl => simp
  | snoc earlier extended ih =>
    intro state member
    rcases mem_cons.mp member with rfl | older
    · obtain ⟨_, _, _, step⟩ := extended.step
      have names := step.mem_activeNames (known_of_run Step.mem_activeNames earlier)
      have implied := step.impliedIrb_known (known_of_run Step.impliedIrb_known earlier)
      have produced := step.lastProduced_known (known_of_run Step.lastProduced_known earlier)
      have keys : ∀ name, name ∈ state.producerToLastImpliedIrb ↔ name ∈ state.activeNames := by
        refine fun name => ⟨names name, fun active => ?_⟩
        obtain ⟨key, scheduled, rfl⟩ := mem_map.mp (mem_dedup.mp active)
        exact implied key scheduled
      refine ⟨keys, fun name active => ?_, calcDposLastIrreversible_eq keys⟩
      obtain ⟨key, scheduled, rfl⟩ := mem_map.mp (mem_dedup.mp active)
      exact produced key scheduled
    · exact ih state older

theorem producerMaps_match_schedule_of_two_producers :
    ∃ state ∈ twoProducerBranch, state.activeNames = [1, 2] ∧
      ∀ name, name ∈ state.producerToLastImpliedIrb ↔ name ∈ state.activeNames :=
  ⟨_, mem_cons_self, rfl, (producerMaps_match_schedule twoProducerBranch_allowed.run _ mem_cons_self).1⟩

end CodexRelay.Chain
