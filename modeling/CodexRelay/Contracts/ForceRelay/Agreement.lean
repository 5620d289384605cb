import CodexRelay.Contracts.ForceRelay.Effects

/-!
Contract: who submitted the actions that `onblock` dispatches.

`commit` looks an entry up by the block alone, and the entry keeps the actions of the account that
opened it. An account that joins the entry confirms these actions, whatever it submits itself.

Owns the invariant that ties the pending entries to the commits: an account is in the list of an
entry because it committed the block with the actions of the entry. It holds as long as every
commit that joins a pending entry submits the actions of that entry.
-/

namespace CodexRelay.Contracts.ForceRelay

open Chain List

/-- A commit that joins a pending entry submits the actions of the entry. -/
def CommitsSameActions (scope : Scope) : Call → Prop
  | .commit _ _ _ block actions =>
    ∀ entry ∈ scope.pending, entry.base.same block = true → entry.actions = actions
  | _ => True

instance (scope : Scope) : (call : Call) → Decidable (CommitsSameActions scope call)
  | .commit .. => inferInstanceAs (Decidable (∀ _ ∈ _, _ → _))
  | .newchannel .. | .newmap .. | .ontransfer .. | .onblock .. => .isTrue trivial

structure Attested (record : Record) : Prop where
  distinct : ∀ relaystat, record.scope.relaystat = some relaystat →
    (relaystat.unconfirms.map (·.base)).Pairwise fun block later => ¬ block.same later = true
  submitted : ∀ entry ∈ record.scope.pending, ∀ account ∈ entry.confirmeds,
    ∃ commitment ∈ record.commits, commitment.account = account ∧
      commitment.block.same entry.base = true ∧ commitment.actions = entry.actions
  entered : ∀ relaystat, record.scope.relaystat = some relaystat →
    ∀ commitment ∈ record.commits, relaystat.last.num < commitment.block.num →
      ∃ entry ∈ relaystat.unconfirms, entry.base.same commitment.block = true ∧
        entry.actions = commitment.actions
  unopened : record.scope.channel = none → record.commits = []

theorem attested_init : Attested {} where
  distinct := nofun
  submitted := nofun
  entered := nofun
  unopened _ := rfl

variable {env : Environment} {record next : Record}

/-! ### Commits -/

section Committed

variable {account : AccountName} {deposit : Asset} {block : BlockType} {actions : List Action}
  {relaystat : BlockRelayStat} {unconfirms : List UnconfirmBlock}

theorem Recorded.distinct {before : List UnconfirmBlock}
    (recorded : Recorded account deposit block actions before unconfirms)
    (distinct : (before.map (·.base)).Pairwise fun block later => ¬ block.same later = true) :
    (unconfirms.map (·.base)).Pairwise fun block later => ¬ block.same later = true := by
  cases recorded with
  | joined => simpa using distinct
  | opened _ _ different arranged =>
    rw [(arranged.map _).pairwise_iff fun unlike same => unlike (BlockType.same_symm same),
      map_append, pairwise_append]
    refine ⟨distinct, pairwise_singleton _ _, ?_⟩
    intro old known fresh member
    obtain ⟨entry, stored, rfl⟩ := mem_map.mp known
    obtain rfl := mem_singleton.mp member
    exact different entry stored

section

variable (attested : Attested record) (stat : record.scope.relaystat = some relaystat)
  (agree : ∀ entry ∈ record.scope.pending, entry.base.same block = true → entry.actions = actions)
  (recorded : Recorded account deposit block actions relaystat.unconfirms unconfirms)

include attested stat agree recorded

theorem Attested.submitted_of_recorded {entry : UnconfirmBlock} (member : entry ∈ unconfirms)
    (newer : relaystat.last.num < entry.base.num) {confirmed : AccountName}
    (listed : confirmed ∈ entry.confirmeds) :
    ∃ commitment ∈ (⟨account, block, actions⟩ :: record.commits : List Commitment),
      commitment.account = confirmed ∧ commitment.block.same entry.base = true ∧
        commitment.actions = entry.actions := by
  have earlier {old : UnconfirmBlock} (known : old ∈ relaystat.unconfirms)
      (newer : relaystat.last.num < old.base.num) (listed : confirmed ∈ old.confirmeds) :=
    attested.submitted old ((Scope.mem_pending stat).mpr ⟨known, newer⟩) confirmed listed
  rcases recorded.mem member with known | fresh | ⟨old, newConfirm, known, same, -, -, joined⟩
  · obtain ⟨commitment, made, described⟩ := earlier known newer listed
    exact ⟨commitment, mem_cons_of_mem _ made, described⟩
  · subst fresh
    obtain rfl := mem_singleton.mp listed
    exact ⟨_, mem_cons_self, rfl, BlockType.same_iff.mpr ⟨rfl, rfl, rfl, rfl⟩, rfl⟩
  · subst joined
    rcases mem_append.mp listed with before | last
    · obtain ⟨commitment, made, described⟩ := earlier known newer before
      exact ⟨commitment, mem_cons_of_mem _ made, described⟩
    · obtain rfl := mem_singleton.mp last
      have agreed := agree old ((Scope.mem_pending stat).mpr ⟨known, newer⟩) same
      exact ⟨_, mem_cons_self, rfl, BlockType.same_symm same, agreed.symm⟩

theorem Attested.entered_of_recorded {commitment : Commitment}
    (made : commitment ∈ (⟨account, block, actions⟩ :: record.commits : List Commitment))
    (newer : relaystat.last.num < commitment.block.num) :
    ∃ entry ∈ unconfirms, entry.base.same commitment.block = true ∧
      entry.actions = commitment.actions := by
  rcases mem_cons.mp made with rfl | earlier
  · obtain ⟨entry, member, same, ⟨old, known, base, kept⟩ | fresh⟩ := recorded.exists_same
    · have pending : old ∈ record.scope.pending := by
        refine (Scope.mem_pending stat).mpr ⟨known, ?_⟩
        rw [base, BlockType.num_of_same same]
        exact newer
      exact ⟨entry, member, same, kept.symm.trans (agree old pending (base ▸ same))⟩
    · exact ⟨entry, member, same, fresh⟩
  · obtain ⟨old, known, same, submitted⟩ := attested.entered relaystat stat commitment earlier newer
    obtain ⟨kept, member, base, actions⟩ := recorded.exists_mem known
    exact ⟨kept, member, base ▸ same, actions.trans submitted⟩

end

end Committed

theorem Attested.applied (attested : Attested record) {relaystat : BlockRelayStat}
    {block : BlockType} {applied : List Application} (known : record.scope.channel.isSome)
    (stat : record.scope.relaystat = some relaystat) (newer : relaystat.last.num < block.num) :
    Attested { record with
      scope := { record.scope with
        relaystat := some { relaystat with
          last := block
          unconfirms := relaystat.unconfirms.filter fun entry => entry.base.num ≠ block.num } }
      applied } where
  distinct := by
    rintro _ ⟨⟩
    exact (attested.distinct relaystat stat).sublist (filter_sublist.map _)
  submitted := by
    intro entry member
    obtain ⟨kept, above⟩ := (Scope.mem_pending rfl).mp member
    exact attested.submitted entry
      ((Scope.mem_pending stat).mpr ⟨(mem_filter.mp kept).1, newer.trans above⟩)
  entered := by
    rintro _ ⟨⟩ commitment made above
    obtain ⟨entry, member, same, submitted⟩ :=
      attested.entered relaystat stat commitment made (newer.trans above)
    have different : entry.base.num ≠ block.num := by
      rw [BlockType.num_of_same same]
      exact Nat.ne_of_gt above
    exact ⟨entry, mem_filter.mpr ⟨member, by simpa using different⟩, same, submitted⟩
  unopened absent := by
    rw [absent] at known
    cases known

theorem Attested.step {call : Call} (attested : Attested record)
    (agree : CommitsSameActions record.scope call) (effect : Effect env record call next) :
    Attested next := by
  cases effect with
  | created _ _ _ absent =>
    have none := attested.unopened absent
    refine ⟨?_, nofun, ?_, nofun⟩
    · rintro _ ⟨⟩
      exact List.Pairwise.nil
    · intro _ _ commitment made
      rw [none] at made
      cases made
  | mapped => exact ⟨attested.distinct, attested.submitted, attested.entered, attested.unopened⟩
  | unprocessed => exact attested
  | deposited => exact ⟨attested.distinct, attested.submitted, attested.entered, nofun⟩
  | late _ _ _ _ _ relaystat known stat old =>
    refine ⟨attested.distinct, ?_, ?_, ?_⟩
    · intro entry member account listed
      obtain ⟨commitment, made, described⟩ := attested.submitted entry member account listed
      exact ⟨commitment, mem_cons_of_mem _ made, described⟩
    · intro other found commitment made newer
      rcases mem_cons.mp made with rfl | earlier
      · rw [show record.scope.relaystat = some other from found] at stat
        cases stat
        exact absurd newer (Nat.not_lt.mpr old)
      · exact attested.entered other found commitment earlier newer
    · intro absent
      rw [show record.scope.channel = none from absent] at known
      cases known
  | committed _ _ _ _ _ relaystat _ _ known stat _ recorded =>
    refine ⟨?_, ?_, ?_, ?_⟩
    · rintro _ ⟨⟩
      exact recorded.distinct (attested.distinct relaystat stat)
    · intro entry member account listed
      obtain ⟨stored, newer⟩ := (Scope.mem_pending rfl).mp member
      exact attested.submitted_of_recorded stat agree recorded stored newer listed
    · rintro _ ⟨⟩ commitment made newer
      exact attested.entered_of_recorded stat agree recorded made newer
    · intro absent
      rw [show record.scope.channel = none from absent] at known
      cases known
  | skipped => exact attested
  | applied _ _ _ _ relaystat known stat newer => exact attested.applied known stat newer

/-- While every commit that joins a pending entry submits its actions, the accounts that confirmed
a block submitted the actions that are dispatched, and no others for this block. -/
theorem appliedEntry_actions_submitted {visited : List World} {last : World}
    (run : Library.Run (Step env CommitsSameActions) (fun _ => {}) visited last)
    (chain : Name) {actors : List AccountName} {block : BlockType} {entry : UnconfirmBlock}
    (applies : appliedEntry env actors block (last chain).scope = .ok (some entry))
    {account : AccountName} (listed : account ∈ entry.confirmeds) :
    (∃ commitment ∈ (last chain).commits, commitment.account = account ∧
      commitment.block.same block = true ∧ commitment.actions = entry.actions) ∧
    ∀ commitment ∈ (last chain).commits, commitment.account = account →
      commitment.block.same block = true → commitment.actions = entry.actions := by
  have attested : Attested (last chain) :=
    Step.invariant attested_init (fun _ _ _ kept allowed ran => kept.step allowed (effect_of_step ran))
      run chain
  obtain ⟨relaystat, channel, stat, -, newer, member, same, -⟩ := appliedEntry_eq_some applies
  have number := BlockType.num_of_same same
  refine ⟨?_, ?_⟩
  · have pending : entry ∈ (last chain).scope.pending :=
      (Scope.mem_pending stat).mpr ⟨member, number ▸ newer⟩
    obtain ⟨commitment, made, own, committed, submitted⟩ :=
      attested.submitted entry pending account listed
    exact ⟨commitment, made, own, BlockType.same_trans committed same, submitted⟩
  · intro commitment made _ committed
    obtain ⟨other, known, sameOther, submitted⟩ := attested.entered relaystat stat commitment made
      (BlockType.num_of_same committed ▸ newer)
    -- the block of the commit has one entry only
    have alike : other.base.same entry.base = true :=
      BlockType.same_trans (BlockType.same_trans sameOther committed) (BlockType.same_symm same)
    have symmetric : Std.Symm fun entry later : UnconfirmBlock =>
        ¬ entry.base.same later.base = true :=
      ⟨fun _ _ unlike same => unlike (BlockType.same_symm same)⟩
    have identical : other = entry := by
      by_contra different
      have distinct := pairwise_map.mp (attested.distinct relaystat stat)
      exact distinct.forall known member different alike
    rw [← identical, submitted]

/-- Two accounts commit the first block with an action, and one of them commits another block with
the same number in between. -/
theorem appliedEntry_actions_submitted_joined : ∃ visited last,
      Library.Run (Step .bounded CommitsSameActions) (fun _ => {}) visited last ∧
        ((∃ commitment ∈ (last 7).commits, commitment.account = 3 ∧
          commitment.block.same firstBlock = true ∧ commitment.actions = [⟨20, 21, [], []⟩]) ∧
        ∀ commitment ∈ (last 7).commits, commitment.account = 3 →
          commitment.block.same firstBlock = true → commitment.actions = [⟨20, 21, [], []⟩]) := by
  obtain ⟨visited, last, run, applies⟩ := @exists_run .bounded CommitsSameActions _
    [.newchannel [7] 7 0, .ontransfer 2 1 ⟨50, 4⟩ "", .ontransfer 3 1 ⟨50, 4⟩ "",
      .commit [2] 7 2 firstBlock [⟨20, 21, [], []⟩], .commit [3] 7 3 { firstBlock with id := 21 } [],
      .commit [3] 7 3 firstBlock [⟨20, 21, [], []⟩]]
    (fun last => appliedEntry .bounded [1] firstBlock (last 7).scope =
      .ok (some ⟨firstBlock, ⟨100, 4⟩, [⟨20, 21, [], []⟩], [2, 3]⟩)) _ (by decide +kernel)
  exact ⟨visited, last, run, appliedEntry_actions_submitted run 7 applies (by decide)⟩

/-- The accounts 2 and 3 have deposits of 50. Where 2 commits the first block with an action and 3
commits it without any, the action is dispatched, and 3 is among those who confirmed it. -/
theorem appliedEntry_actions_of_first :
    ∃ visited last, Library.Run (Step .bounded fun _ _ => True) (fun _ => {}) visited last ∧
      ⟨7, firstBlock, [⟨20, 21, [], []⟩]⟩ ∈ (last 7).sent ∧
      appliedEntry .bounded [1] firstBlock (last 7).scope =
        .ok (some ⟨firstBlock, ⟨100, 4⟩, [⟨20, 21, [], []⟩], [2, 3]⟩) ∧
      (last 7).commits = [⟨3, firstBlock, []⟩, ⟨2, firstBlock, [⟨20, 21, [], []⟩]⟩] :=
  exists_run [.newchannel [7] 7 0, .ontransfer 2 1 ⟨50, 4⟩ "", .ontransfer 3 1 ⟨50, 4⟩ "",
    .commit [2] 7 2 firstBlock [⟨20, 21, [], []⟩], .commit [3] 7 3 firstBlock []] (by decide +kernel)

end CodexRelay.Contracts.ForceRelay
