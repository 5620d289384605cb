import CodexRelay.Chain.HeaderState.Branch

/-!
Contract: what `confirm_count` counts along a branch.

Owns:
- the effect of the confirmation loop on every entry of the vector;
- `Tracked`, the invariant that ties every entry to the block it stands for, to
  the schedule that signs that block and to the blocks that confirmed it;
- the quorum behind a proposed irreversible block.

The entries are bytes. A schedule that needs more than 256 confirmations does
not fit one, which `proposed_quorum` excludes and `small_quorum_of_large_schedule`
shows to be necessary.
-/

namespace CodexRelay.Chain

open Library List BlockHeaderState

variable {fc : Primitives}

variable {index remaining blocksToConfirm entry : Nat} {confirmCount : List Nat}

/-! ### The confirmation loop -/

theorem confirmBlocks_length (confirmCount : List Nat) (remaining blocksToConfirm : Nat) :
    (confirmBlocks confirmCount remaining blocksToConfirm).1.length = confirmCount.length := by
  fun_induction confirmBlocks confirmCount remaining blocksToConfirm with
  | case1 => rfl
  | case2 => rfl
  | case3 confirmCount index blocks decremented => simp [decremented]
  | case4 confirmCount index blocks decremented _ ih =>
    rw [ih]
    simp [decremented]

theorem confirmBlocks_getElem?_above (confirmCount : List Nat) (remaining blocksToConfirm : Nat)
    (above : remaining ≤ index) :
    (confirmBlocks confirmCount remaining blocksToConfirm).1[index]? = confirmCount[index]? := by
  fun_induction confirmBlocks confirmCount remaining blocksToConfirm with
  | case1 => rfl
  | case2 => rfl
  | case3 confirmCount current blocks decremented =>
    simp [decremented, show current ≠ index by omega]
  | case4 confirmCount current blocks decremented _ ih =>
    rw [ih (by omega)]
    simp [decremented, show current ≠ index by omega]

/-- When the loop stops at `index`, that entry is within reach and reached zero,
and the entries above it were decremented and did not. -/
theorem confirmBlocks_some
    (stopped : (confirmBlocks confirmCount remaining blocksToConfirm).2 = some index) :
    index < remaining ∧ remaining ≤ index + blocksToConfirm ∧
      confirmCount[index]?.map decrementU8 = some 0 ∧
      ∀ other, index < other → other < remaining →
        (confirmBlocks confirmCount remaining blocksToConfirm).1[other]? =
            confirmCount[other]?.map decrementU8 ∧
          confirmCount[other]?.map decrementU8 ≠ some 0 := by
  fun_induction confirmBlocks confirmCount remaining blocksToConfirm with
  | case1 => simp at stopped
  | case2 => simp at stopped
  | case3 confirmCount current blocks decremented zero =>
    obtain rfl := Option.some.inj stopped
    refine ⟨by omega, by omega, ?_, fun other above below => by omega⟩
    simpa [decremented, getElem?_modify] using zero
  | case4 confirmCount current blocks decremented nonzero ih =>
    obtain ⟨below, reached, zero, between⟩ := ih stopped
    refine ⟨by omega, by omega, ?_, fun other above otherBelow => ?_⟩
    · simpa [decremented, getElem?_modify, show current ≠ index by omega] using zero
    · by_cases top : other = current
      · subst top
        rw [confirmBlocks_getElem?_above _ _ _ le_rfl]
        have own : decremented[other]? = confirmCount[other]?.map decrementU8 := by
          simp [decremented]
        rw [own] at nonzero
        exact ⟨own, nonzero⟩
      · have lower := between other above (by omega)
        have same : decremented[other]? = confirmCount[other]? := by
          simp [decremented, Ne.symm top]
        rwa [same] at lower

/-- When the loop runs to its end, exactly the entries within reach were
decremented, and none of them reached zero. -/
theorem confirmBlocks_none
    (finished : (confirmBlocks confirmCount remaining blocksToConfirm).2 = none)
    (below : index < remaining) :
    if remaining ≤ index + blocksToConfirm then
      (confirmBlocks confirmCount remaining blocksToConfirm).1[index]? =
          confirmCount[index]?.map decrementU8 ∧
        confirmCount[index]?.map decrementU8 ≠ some 0
    else
      (confirmBlocks confirmCount remaining blocksToConfirm).1[index]? = confirmCount[index]? := by
  fun_induction confirmBlocks confirmCount remaining blocksToConfirm with
  | case1 => omega
  | case2 => rw [if_neg (by omega)]
  | case3 => simp at finished
  | case4 confirmCount current blocks decremented nonzero ih =>
    by_cases top : index = current
    · subst top
      rw [if_pos (by omega), confirmBlocks_getElem?_above _ _ _ le_rfl]
      have own : decremented[index]? = confirmCount[index]?.map decrementU8 := by
        simp [decremented]
      rw [own] at nonzero
      exact ⟨own, nonzero⟩
    · have lower := ih finished (by omega)
      have same : decremented[index]? = confirmCount[index]? := by
        simp [decremented, Ne.symm top]
      rw [same] at lower
      by_cases reach : current ≤ index + blocks
      · rw [if_pos reach] at lower
        rwa [if_pos (by omega)]
      · rw [if_neg reach] at lower
        rwa [if_neg (by omega)]

/-- What a block does to `confirm_count`. Of the grown vector the first `cut` entries are dropped,
the last of which became zero, and those within reach of the block are decremented. -/
theorem Step.confirm {parent child : BlockHeaderState} {slot confirmed : Nat} {prokey : ProducerKey}
    (step : Step fc parent slot prokey confirmed child) :
    ∃ cut, child.confirmCount.length + cut = parent.grownConfirmCount.length ∧
      (∀ index entry, child.confirmCount[index]? = some entry →
        ∃ old, parent.grownConfirmCount[cut + index]? = some old ∧
          entry = (if parent.grownConfirmCount.length ≤ cut + index + (confirmed + 1)
            then decrementU8 old else old) ∧
          (parent.grownConfirmCount.length ≤ cut + index + (confirmed + 1) → entry ≠ 0)) ∧
      (cut = 0 ∧
          child.dposProposedIrreversibleBlocknum = parent.dposProposedIrreversibleBlocknum ∨
        ∃ stop, cut = stop + 1 ∧ stop < parent.grownConfirmCount.length ∧
          parent.grownConfirmCount.length ≤ stop + (confirmed + 1) ∧
          parent.grownConfirmCount[stop]?.map decrementU8 = some 0 ∧
          child.dposProposedIrreversibleBlocknum =
            subU32 child.blockNum (parent.grownConfirmCount.length - 1 - stop)) := by
  have confirmCount := congrArg (·.confirmCount) step.common
  have proposed := congrArg (·.dposProposedIrreversibleBlocknum) step.common
  dsimp only [buildPending] at confirmCount proposed
  rw [← step.blockNum_eq] at proposed
  have length := confirmBlocks_length parent.grownConfirmCount parent.grownConfirmCount.length
    (confirmed + 1)
  cases outcome : (confirmBlocks parent.grownConfirmCount parent.grownConfirmCount.length
      (confirmed + 1)).2 with
  | none =>
    rw [outcome] at confirmCount proposed
    dsimp only at confirmCount
    refine ⟨0, by rw [confirmCount, length]; rfl, fun index entry found => ?_, .inl ⟨rfl, proposed⟩⟩
    rw [confirmCount] at found
    have inside : index < parent.grownConfirmCount.length :=
      length ▸ (List.getElem?_eq_some_iff.mp found).1
    have present := getElem?_eq_getElem inside
    have effect := confirmBlocks_none outcome inside
    rw [found, present] at effect
    rw [Nat.zero_add]
    refine ⟨_, present, ?_⟩
    split_ifs at effect ⊢ with reach
    · exact ⟨Option.some.inj effect.1, fun _ zero => effect.2 (zero ▸ effect.1.symm)⟩
    · exact ⟨Option.some.inj effect, fun within => absurd within reach⟩
  | some stop =>
    rw [outcome] at confirmCount proposed
    dsimp only at confirmCount
    obtain ⟨inside, reached, zero, between⟩ := confirmBlocks_some outcome
    refine ⟨stop + 1, ?_, fun index entry found => ?_,
      .inr ⟨stop, rfl, inside, reached, zero, proposed⟩⟩
    · rw [confirmCount, length_drop, length]
      omega
    -- Every entry that is left lies above the one that reached zero.
    · rw [confirmCount, getElem?_drop] at found
      have below : stop + 1 + index < parent.grownConfirmCount.length :=
        length ▸ (List.getElem?_eq_some_iff.mp found).1
      have present := getElem?_eq_getElem below
      obtain ⟨effect, nonzero⟩ := between _ (by omega) below
      rw [found, present] at effect
      rw [present] at nonzero
      refine ⟨_, present, ?_, fun _ zero => nonzero (zero ▸ effect.symm)⟩
      rw [if_pos (by omega)]
      exact Option.some.inj effect

/-! ### What the entries count -/

/-- `entry` stands for the block after `parent`: it holds the confirmations that
block still needs, modulo the width of a byte. -/
def Counts (visited : List BlockHeaderState) (parent : BlockHeaderState) (entry : Nat) : Prop :=
  (entry + (confirmers visited (parent.blockNum + 1)).length) % 2 ^ 8 = parent.requiredConfs % 2 ^ 8

/-- Along a branch every entry of `confirm_count` counts for the block at its
distance from the newest one. -/
structure Tracked (start : BlockHeaderState) (visited : List BlockHeaderState)
    (last : BlockHeaderState) : Prop where
  lastMem : last ∈ visited ++ [start]
  numbered : ∀ block ∈ visited, block.blockNum ≤ last.blockNum
  entries : ∀ index entry, last.confirmCount[index]? = some entry → ∃ parent ∈ visited ++ [start],
      parent.blockNum + last.confirmCount.length = last.blockNum + index ∧
        Counts visited parent entry

theorem Tracked.start {start : BlockHeaderState} (fresh : start.confirmCount = []) :
    Tracked start [] start where
  lastMem := by simp
  numbered := by simp
  entries := by simp [fresh]

section Step

variable {start parent child : BlockHeaderState} {visited : List BlockHeaderState}
  {slot confirmed : Nat} {prokey : ProducerKey} (tracked : Tracked start visited parent)
  (taken : Step fc parent slot prokey confirmed child)
  (number : child.blockNum = parent.blockNum + 1)

include tracked in
/-- The entries of the grown vector, before the new block confirms anything. -/
theorem Tracked.grown (found : parent.grownConfirmCount[index]? = some entry) :
    ∃ signed ∈ visited ++ [start],
      signed.blockNum + parent.grownConfirmCount.length = parent.blockNum + 1 + index ∧
        Counts visited signed entry := by
  unfold grownConfirmCount at found ⊢
  set kept := if parent.confirmCount.length < maximumTrackedDposConfirmations then
    parent.confirmCount else parent.confirmCount.drop 1 with keptEq
  rw [length_append, length_singleton]
  rcases Nat.lt_trichotomy index kept.length with old | new | outside
  · rw [getElem?_append_left old] at found
    -- The vector either kept all its entries or lost the first one.
    by_cases room : parent.confirmCount.length < maximumTrackedDposConfirmations
    · rw [if_pos room] at keptEq
      rw [keptEq] at found ⊢
      obtain ⟨signed, member, position, counts⟩ := tracked.entries index entry found
      exact ⟨signed, member, by omega, counts⟩
    · rw [if_neg room] at keptEq
      rw [keptEq, getElem?_drop, Nat.add_comm] at found
      obtain ⟨signed, member, position, counts⟩ := tracked.entries _ entry found
      have length : kept.length = parent.confirmCount.length - 1 := by simp [keptEq]
      have full : 0 < parent.confirmCount.length := by
        have := List.getElem?_eq_some_iff.mp found
        omega
      exact ⟨signed, member, by omega, counts⟩
  · obtain rfl : parent.requiredConfs % 2 ^ 8 = entry := by
      rw [new, getElem?_append_right le_rfl] at found
      simpa using found
    refine ⟨parent, tracked.lastMem, by omega, ?_⟩
    have none : confirmers visited (parent.blockNum + 1) = [] := by
      rw [confirmers, filter_eq_nil_iff]
      intro block member
      have := tracked.numbered block member
      simp only [mem_confirmedRange, decide_eq_true_eq]
      omega
    simp [Counts, none]
  · rw [getElem?_append_right outside.le] at found
    simp [show index - kept.length ≠ 0 by omega] at found

include taken number in
/-- The new block adds itself to the confirmations of a block within its reach,
and to no other. -/
theorem Step.confirmers_cons (visited : List BlockHeaderState) {signed : BlockHeaderState}
    {length : Nat}
    (inside : index < length) (position : signed.blockNum + length = parent.blockNum + 1 + index) :
    (confirmers (child :: visited) (signed.blockNum + 1)).length =
      (confirmers visited (signed.blockNum + 1)).length +
        if length ≤ index + (confirmed + 1) then 1 else 0 := by
  have covers : ((signed.blockNum + 1 : Nat) : ℤ) ∈ child.confirmedRange ↔
      length ≤ index + (confirmed + 1) := by
    rw [mem_confirmedRange, number, taken.headerConfirmed]
    omega
  unfold confirmers
  rw [filter_cons]
  by_cases reach : length ≤ index + (confirmed + 1)
  · rw [if_pos reach, if_pos (by simpa using covers.mpr reach), length_cons]
  · rw [if_neg reach, if_neg (by simpa using fun inRange => reach (covers.mp inRange))]
    rfl

include tracked taken number

/-- An entry of the grown vector and the block it stands for, once the new block
has confirmed the entries within its reach. -/
theorem Tracked.afterConfirming (found : parent.grownConfirmCount[index]? = some entry) :
    ∃ signed ∈ visited ++ [start],
      signed.blockNum + parent.grownConfirmCount.length = child.blockNum + index ∧
        Counts (child :: visited) signed
          (if parent.grownConfirmCount.length ≤ index + (confirmed + 1) then decrementU8 entry
            else entry) := by
  obtain ⟨signed, member, position, counts⟩ := tracked.grown found
  have inside := (List.getElem?_eq_some_iff.mp found).1
  have added := taken.confirmers_cons number visited inside position
  refine ⟨signed, member, by rw [number, position], ?_⟩
  unfold Counts decrementU8 at *
  rw [added]
  split <;> omega

theorem Tracked.step : Tracked start (child :: visited) child where
  lastMem := by simp
  numbered := by
    intro block member
    rcases mem_cons.mp member with rfl | older
    · exact le_rfl
    · have := tracked.numbered block older
      omega
  entries := by
    intro index entry found
    obtain ⟨cut, length, effect, -⟩ := taken.confirm
    obtain ⟨old, present, rfl, -⟩ := effect index entry found
    obtain ⟨signed, member, position, counts⟩ := tracked.afterConfirming taken number present
    exact ⟨signed, mem_cons_of_mem _ member, by omega, counts⟩

/-- The entry that reaches zero has been confirmed as often as its block needs,
provided that number fits the byte. -/
theorem Tracked.quorum
    (moved : child.dposProposedIrreversibleBlocknum ≠ parent.dposProposedIrreversibleBlocknum) :
    ∃ signed ∈ visited ++ [start],
      signed.blockNum + 1 = child.dposProposedIrreversibleBlocknum ∧
        (signed.requiredConfs ≤ 2 ^ 8 → signed.requiredConfs ≤
            (confirmers (child :: visited) child.dposProposedIrreversibleBlocknum).length) := by
  obtain ⟨cut, -, -, ⟨-, same⟩ | ⟨stop, -, inside, reached, zero, proposed⟩⟩ := taken.confirm
  · exact absurd same moved
  · have present := getElem?_eq_getElem inside
    rw [present] at zero
    obtain ⟨signed, member, position, counts⟩ := tracked.afterConfirming taken number present
    rw [if_pos reached, Option.some.inj zero] at counts
    have added := taken.confirmers_cons number visited inside (position.trans (by rw [number]))
    rw [if_pos reached] at added
    rw [subU32, if_pos (by omega)] at proposed
    have isNext : signed.blockNum + 1 = child.dposProposedIrreversibleBlocknum := by omega
    refine ⟨signed, member, isNext, fun fits => ?_⟩
    have positive : 0 < signed.requiredConfs := by
      unfold requiredConfs
      omega
    rw [← isNext]
    unfold Counts at counts
    omega

end Step

/-! ### The quorum -/

theorem Tracked.run {start last : BlockHeaderState} {visited : List BlockHeaderState}
    (fresh : start.confirmCount = []) (branch : Run (Numbered fc) start visited last) :
    Tracked start visited last := by
  induction branch with
  | refl => exact .start fresh
  | snoc _ taken ih =>
    obtain ⟨_, _, _, step⟩ := taken.extended.step
    exact ih.step step taken.number

/-- Blocks that confirm one number have different producers, unless somebody
confirmed it twice. -/
theorem NoDoubleConfirmation.confirmers_nodup {blocks : List BlockHeaderState}
    (honest : NoDoubleConfirmation blocks) (num : Nat) :
    ((confirmers blocks num).map (·.header.producer)).Nodup := by
  have filtered := List.Pairwise.filter (fun block => (num : ℤ) ∈ block.confirmedRange) honest
  rw [List.Nodup, pairwise_map]
  refine List.Pairwise.imp_of_mem ?_ filtered
  intro newer older newerMem olderMem disjoint same
  have newerCovers := of_decide_eq_true (mem_filter.mp newerMem).2
  have olderCovers := of_decide_eq_true (mem_filter.mp olderMem).2
  exact Set.disjoint_left.mp (disjoint same) newerCovers olderCovers

def confirmingProducers (blocks : List BlockHeaderState) (num : Nat) : Finset AccountName :=
  ((confirmers blocks num).map (·.header.producer)).toFinset

/-- `floor(2n/3) + 1` producers have confirmed block `num`, where `n` is the size
of the schedule of `signed`, which signs the block after it. -/
def QuorumConfirmed (blocks : List BlockHeaderState) (signed : BlockHeaderState) (num : Nat) :
    Prop :=
  2 * signed.activeSchedule.producers.length / 3 + 1 ≤ (confirmingProducers blocks num).card

/-- When a block becomes the proposed irreversible one, more than two thirds of
the producers in the schedule that signs it have confirmed it on this branch. -/
theorem proposed_quorum {start last child : BlockHeaderState} {visited : List BlockHeaderState}
    (fresh : start.confirmCount = []) (branch : Run (Extends fc) start visited last)
    (extended : Extends fc last child)
    (fits : start.blockNum + (child :: visited).length < 2 ^ 32)
    (honest : NoDoubleConfirmation (child :: visited))
    (moved : child.dposProposedIrreversibleBlocknum ≠ last.dposProposedIrreversibleBlocknum) :
    ∃ signed ∈ visited ++ [start],
      signed.blockNum + 1 = child.dposProposedIrreversibleBlocknum ∧
        (signed.activeSchedule.producers.length ≤ 383 →
          QuorumConfirmed (child :: visited) signed child.dposProposedIrreversibleBlocknum) := by
  have reached := (numbered_of_run (branch.snoc extended) fits).2
  rw [List.length_cons] at fits reached
  obtain ⟨numbered, reachedLast⟩ := numbered_of_run branch (by omega)
  obtain ⟨_, _, _, step⟩ := extended.step
  obtain ⟨signed, member, isNext, quorum⟩ :=
    (Tracked.run fresh numbered).quorum step (by omega) moved
  refine ⟨signed, member, isNext, fun small => ?_⟩
  unfold QuorumConfirmed confirmingProducers
  rw [toFinset_card_of_nodup (honest.confirmers_nodup _), length_map]
  unfold requiredConfs at quorum
  have := quorum (by omega)
  omega

def twoProducerGenesis : GenesisState where
  initialProducerList := [⟨1, 1⟩, ⟨2, 2⟩]
  initialTimestamp := 0
  chainId := 0

/-- Each producer makes a block, and the second confirms the first. -/
def twoProducerBranch : List BlockHeaderState :=
  (twoProducerGenesis.headerState .zero).makeBranch .zero [⟨3, ⟨2, 2⟩, 1, none⟩, ⟨1, ⟨1, 1⟩, 0, none⟩]

theorem twoProducerBranch_allowed : (twoProducerGenesis.headerState .zero).MayProduceBranch .zero
    [⟨3, ⟨2, 2⟩, 1, none⟩, ⟨1, ⟨1, 1⟩, 0, none⟩] :=
  ⟨⟨by decide, by decide, rfl, rfl, rfl, by simp⟩, ⟨by decide, by decide, rfl, rfl, rfl, by simp⟩,
    trivial⟩

theorem proposed_quorum_of_two_producers :
    ∃ second first, twoProducerBranch = [second, first] ∧
      second.dposProposedIrreversibleBlocknum = 2 ∧
        ∃ signed ∈ [first, twoProducerGenesis.headerState .zero],
          signed.blockNum + 1 = second.dposProposedIrreversibleBlocknum ∧
            (signed.activeSchedule.producers.length ≤ 383 →
              QuorumConfirmed twoProducerBranch signed second.dposProposedIrreversibleBlocknum) := by
  have honest : NoDoubleConfirmation twoProducerBranch := by
    unfold NoDoubleConfirmation twoProducerBranch
    rw [makeBranch, makeBranch, makeBranch, pairwise_pair]
    intro same
    exact absurd same (by decide)
  exact ⟨_, _, rfl, rfl, proposed_quorum rfl twoProducerBranch_allowed.2.run
    (twoProducerBranch_allowed.1.extends .zero) (by decide) honest (by decide)⟩

def oversizedGenesis : GenesisState where
  initialProducerList := (List.range 384).map fun name => ⟨name, name⟩
  initialTimestamp := 0
  chainId := 0

/-- A schedule of 384 producers needs 257 confirmations, which a byte holds as
one: the first block on the chain makes itself the proposed irreversible one. -/
theorem small_quorum_of_large_schedule :
    ¬ ∃ fc : Primitives, ∀ (start last child : BlockHeaderState) (visited : List BlockHeaderState),
      start.confirmCount = [] → Run (Extends fc) start visited last → Extends fc last child →
        NoDoubleConfirmation (child :: visited) →
          child.dposProposedIrreversibleBlocknum ≠ last.dposProposedIrreversibleBlocknum →
            ∃ signed ∈ visited ++ [start],
              signed.blockNum + 1 = child.dposProposedIrreversibleBlocknum ∧
                QuorumConfirmed (child :: visited) signed
                  child.dposProposedIrreversibleBlocknum := by
  rintro ⟨fc, claim⟩
  set start := oversizedGenesis.headerState fc with startEq
  have size : start.activeSchedule.producers.length = 384 := by
    simp [startEq, GenesisState.headerState, oversizedGenesis]
  have scheduled : start.getScheduledProducer 1 = .ok ⟨0, 0⟩ := by
    unfold getScheduledProducer
    simp only [size]
    simp [startEq, GenesisState.headerState, oversizedGenesis, producerRepetitions]
  have allowed : start.MayProduce ⟨1, ⟨0, 0⟩, 0, none⟩ :=
    ⟨by decide, by decide, rfl, scheduled, rfl, by simp⟩
  set child := start.makeChild fc ⟨1, ⟨0, 0⟩, 0, none⟩ with childEq
  have grown : start.grownConfirmCount = [1] := by
    unfold grownConfirmCount requiredConfs
    rw [size]
    rfl
  have proposed : child.dposProposedIrreversibleBlocknum = 2 := by
    simp only [childEq, makeChild, buildPending, grown]
    rfl
  have moved : child.dposProposedIrreversibleBlocknum ≠ start.dposProposedIrreversibleBlocknum := by
    rw [proposed]
    exact Nat.succ_ne_zero 1
  obtain ⟨signed, member, -, quorum⟩ := claim start start child [] rfl .refl (allowed.extends fc)
    (pairwise_singleton _ _) moved
  obtain rfl : signed = start := by simpa using member
  have few : (confirmingProducers [child] child.dposProposedIrreversibleBlocknum).card ≤ 1 := by
    calc (confirmingProducers [child] child.dposProposedIrreversibleBlocknum).card
        ≤ ((confirmers [child] child.dposProposedIrreversibleBlocknum).map
            (·.header.producer)).length := toFinset_card_le _
      _ ≤ 1 := by
          rw [length_map]
          exact length_filter_le _ _
  unfold QuorumConfirmed at quorum
  omega

end CodexRelay.Chain
