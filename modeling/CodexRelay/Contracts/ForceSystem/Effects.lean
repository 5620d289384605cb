import CodexRelay.Contracts.ForceSystem.Steps

/-!
Contract: what the actions of `force.system` leave alone.

Owns `Untouched`, that a function only writes the tables of the producers and their rewards, for
every loop of `producer.cpp` and for the actions built from them.
-/

namespace CodexRelay.Contracts.ForceSystem

open Chain Library FreezeInfo

variable {forceChange : Bool} {names : List AccountName} {rewardAmount amount quantity : Int}
  {scheduleVersion : Nat} {row : VoteInfo} {receiver punishbpname recipient : AccountName}

variable {all budget change : Int} {initiator sender : AccountName} {memo : String}

def FreezeInfo.tokens (row : FreezeInfo) : Int := row.staked + row.unstaking

/-- What the system account owes: the frozen tokens, the votes, and the deposit of every motion. -/
def Tables.owed (tables : Tables) : Int :=
  total tokens tables.freezed +
    total VoteInfo.vote tables.votes + total VoteInfo.vote tables.votes4ram +
    total (fun _ => punishBpFee) tables.punishbps

/-- The tokens, the pending actions, the block and the history of the rewards are as before. -/
structure Quiet (tables result : Tables) : Prop where
  balances : result.balances = tables.balances
  inline : result.inline = tables.inline
  blockNum : result.blockNum = tables.blockNum
  issued : result.issued = tables.issued
  passed : result.passed = tables.passed

/-- Only the tables of the producers and their rewards are written. -/
structure Untouched (tables result : Tables) : Prop extends Quiet tables result where
  freezed : result.freezed = tables.freezed
  votes : result.votes = tables.votes
  votes4ram : result.votes4ram = tables.votes4ram
  punishbps : result.punishbps = tables.punishbps

structure Moves (tables result : Tables) (amount : Int) : Prop extends Quiet tables result where
  owed : result.owed = tables.owed + amount

section Compose

variable {first second third : Tables} {left right : Int}

theorem Quiet.refl (tables : Tables) : Quiet tables tables := ⟨rfl, rfl, rfl, rfl, rfl⟩

theorem Quiet.trans (before : Quiet first second) (after : Quiet second third) :
    Quiet first third where
  balances := after.balances.trans before.balances
  inline := after.inline.trans before.inline
  blockNum := after.blockNum.trans before.blockNum
  issued := after.issued.trans before.issued
  passed := after.passed.trans before.passed

theorem Untouched.refl (tables : Tables) : Untouched tables tables :=
  ⟨.refl tables, rfl, rfl, rfl, rfl⟩

theorem Untouched.trans (before : Untouched first second) (after : Untouched second third) :
    Untouched first third where
  toQuiet := before.toQuiet.trans after.toQuiet
  freezed := after.freezed.trans before.freezed
  votes := after.votes.trans before.votes
  votes4ram := after.votes4ram.trans before.votes4ram
  punishbps := after.punishbps.trans before.punishbps

theorem Untouched.owed (untouched : Untouched first second) : second.owed = first.owed := by
  unfold Tables.owed
  rw [untouched.freezed, untouched.votes, untouched.votes4ram, untouched.punishbps]

theorem Untouched.moves (untouched : Untouched first second) : Moves first second 0 :=
  ⟨untouched.toQuiet, by rw [untouched.owed, add_zero]⟩

theorem Moves.trans (before : Moves first second left) (after : Moves second third right) :
    Moves first third (left + right) :=
  ⟨before.toQuiet.trans after.toQuiet, by rw [after.owed, before.owed, add_assoc]⟩

theorem Untouched.trans_moves (before : Untouched first second) (after : Moves second third right) :
    Moves first third right :=
  ⟨before.toQuiet.trans after.toQuiet, by rw [after.owed, before.owed]⟩

theorem Moves.trans_untouched (before : Moves first second left) (after : Untouched second third) :
    Moves first third left :=
  ⟨before.toQuiet.trans after.toQuiet, by rw [after.owed, before.owed]⟩

theorem Moves.of_eq (moves : Moves first second left) (same : left = right) :
    Moves first second right :=
  same ▸ moves

end Compose

variable {env : Environment} {tables result : Tables} {sent : List Sent}

theorem untouched_setBp (tables : Tables) (bpname : AccountName) (bp : BpInfo) :
    Untouched tables (tables.setBp bpname bp) :=
  by repeat constructor

/-! ### Loops -/

theorem untouched_of_rewardProducers {rewardPreBlock age total : Int} {producers : List Producer}
    (ran : rewardProducers env rewardPreBlock forceChange producers age tables = .ok (result, total)) :
    Untouched tables result := by
  induction producers generalizing age tables with
  | nil =>
    cases ran
    exact .refl _
  | cons producer producers ih =>
    obtain ⟨⟨middle, sum⟩, ranFirst, ranRest⟩ := of_bind ran
    obtain ⟨bp, -, ranFirst⟩ := of_row ranFirst
    obtain ⟨needed, -, ranFirst⟩ := of_bind ranFirst
    obtain ⟨punished, -, ranFirst⟩ := of_bind ranFirst
    cases ranFirst
    refine .trans ?_ (ih ranRest)
    repeat constructor

theorem untouched_of_settleBps (ran : settleBps names tables = .ok result) :
    Untouched tables result := by
  induction names generalizing tables with
  | nil =>
    cases ran
    exact .refl _
  | cons bpname names ih =>
    obtain ⟨bp, -, ran⟩ := of_row ran
    obtain ⟨records, -, ran⟩ := of_bind ran
    refine .trans ?_ (ih ran)
    repeat constructor

theorem untouched_of_electBps {needed : Int} {election elected : Election}
    (ran : electBps env needed names election tables = .ok (result, elected)) :
    Untouched tables result := by
  induction names generalizing election tables with
  | nil =>
    cases ran
    exact .refl _
  | cons bpname names ih =>
    obtain ⟨bp, -, ran⟩ := of_row ran
    obtain ⟨amount, -, ran⟩ := of_bind ran
    obtain ⟨super, -, ran⟩ := of_bind ran
    exact (untouched_setBp _ _ _).trans (ih ran)

theorem untouched_of_resetBlockWeight (ran : resetBlockWeight names tables = .ok result) :
    Untouched tables result := by
  induction names generalizing tables with
  | nil =>
    cases ran
    exact .refl _
  | cons bpname names ih =>
    obtain ⟨bp, -, ran⟩ := of_row ran
    exact (untouched_setBp _ _ _).trans (ih ran)

theorem untouched_of_rewardBpVotes {total : Int} {bpname : AccountName}
    (ran : rewardBpVotes env rewardAmount all bpname budget tables = .ok (result, total)) :
    Untouched tables result := by
  obtain ⟨bp, -, ran⟩ := of_row ran
  obtain ⟨record, -, ran⟩ := of_bind ran
  split at ran
  · cases ran
    exact .refl _
  · obtain ⟨share, -, ran⟩ := of_row ran
    obtain ⟨voteReward, -, ran⟩ := of_bind ran
    obtain ⟨product, -, ran⟩ := of_bind ran
    obtain ⟨rewardBlockAsset, -, ran⟩ := of_bind ran
    split at ran
    · obtain ⟨more, -, ran⟩ := of_bind ran
      cases ran
      exact .refl _
    · obtain ⟨rewardsBlock, -, ran⟩ := of_bind ran
      obtain ⟨rest, -, ran⟩ := of_bind ran
      obtain ⟨totalReward, -, ran⟩ := of_bind ran
      cases ran
      repeat constructor

theorem untouched_of_rewardBpsVotes {total : Int}
    (ran : rewardBpsVotes env rewardAmount all names budget tables = .ok (result, total)) :
    Untouched tables result := by
  induction names generalizing budget tables with
  | nil =>
    cases ran
    exact .refl _
  | cons bpname names ih =>
    obtain ⟨⟨middle, sum⟩, ranFirst, ranRest⟩ := of_bind ran
    exact (untouched_of_rewardBpVotes ranFirst).trans (ih ranRest)

/-! ### Parts of `onblock` -/

theorem untouched_of_rewardBlock
    (ran : rewardBlock env scheduleVersion rewardAmount forceChange tables = .ok result) :
    Untouched tables result := by
  obtain ⟨producers, -, ran⟩ := of_row ran
  obtain ⟨⟨middle, age⟩, rewarded, ran⟩ := of_bind ran
  obtain ⟨amount, -, ran⟩ := of_bind ran
  obtain ⟨rewardBlockOut, -, ran⟩ := of_bind ran
  cases ran
  exact (untouched_of_rewardProducers rewarded).trans
    (by repeat constructor)

theorem untouched_of_updateElectedBps (ran : updateElectedBps env tables = .ok result) :
    Untouched tables result := by
  obtain ⟨⟨middle, election⟩, elected, ran⟩ := of_bind ran
  cases ran
  exact (untouched_of_electBps elected).trans (by repeat constructor)

/-- The inline actions of the end of a day do not move tokens of accounts. -/
theorem untouched_of_endDay {update : Bool} {mined : Int}
    (ran : endDay update mined tables = .ok (result, sent)) :
    Untouched tables result ∧
      sent = if update then [.settlemine, .rewardmine mined, .activemine] else [] := by
  unfold endDay at ran
  split_ifs at ran with ends
  · obtain ⟨middle, settled, ran⟩ := of_bind ran
    cases ran
    exact ⟨untouched_of_settleBps settled, (if_pos ends).symm⟩
  · cases ran
    exact ⟨.refl _, (if_neg ends).symm⟩

/-- A cycle only adds its reward to the history, and issues it. -/
theorem untouched_of_rewardCycle
    (ran : rewardCycle env scheduleVersion forceChange tables = .ok (result, sent)) :
    Untouched (tables.withCycle env.constants) result ∧ sent = .issue env.rewardAccount
        ((tables.rewardInfo env.constants).blockRewards env.constants tables.blockNum)
        "issue tokens for producer pay" ::
        if (tables.rewardInfo env.constants).rewardUpdate env.constants then
          [.settlemine,
            .rewardmine ((tables.rewardInfo env.constants).minedRewards env.constants
              tables.blockNum), .activemine]
        else [] := by
  obtain ⟨quantity, made, ran⟩ := of_bind ran
  obtain ⟨rewarded, ranBlock, ran⟩ := of_bind ran
  obtain ⟨⟨settled, rest⟩, ended, ran⟩ := of_bind ran
  obtain ⟨elected, ranElection, ran⟩ := of_bind ran
  cases ran
  obtain ⟨kept, rfl⟩ := untouched_of_endDay ended
  rw [asset_eq_ok made]
  refine ⟨(untouched_of_rewardBlock ranBlock).trans (kept.trans ?_), rfl⟩
  unfold electUnlessChanged at ranElection
  split_ifs at ranElection
  · cases ranElection
    exact .refl _
  · exact untouched_of_updateElectedBps ranElection

theorem untouched_of_recordBlock {bpname : AccountName} {blockProducers : List AccountName}
    {schedule : Option (List Producer)}
    (ran : recordBlock bpname scheduleVersion blockProducers schedule tables = .ok result) :
    Untouched tables result := by
  unfold recordBlock at ran
  cases schedule with
  | none =>
    refine .trans ?_ (untouched_of_resetBlockWeight ran)
    repeat constructor
  | some producers =>
    cases ran
    repeat constructor

theorem onblock_cases {bpname : AccountName} {activeProducers : List AccountName}
    (ran : onblock env bpname scheduleVersion activeProducers tables = .ok (result, sent)) :
    Untouched tables result ∧ sent = [] ∨
      endsCycle env bpname scheduleVersion tables = .ok true ∧ ∃ rewarded,
        rewardCycle env scheduleVersion (tables.schedules.lookup scheduleVersion).isNone tables =
          .ok (rewarded, sent) ∧ Untouched rewarded result := by
  obtain ⟨ends, decided, ran⟩ := of_bind ran
  obtain ⟨⟨rewarded, rest⟩, ranCycle, ran⟩ := of_bind ran
  obtain ⟨last, recorded, ran⟩ := of_bind ran
  cases ran
  cases ends with
  | false =>
    cases ranCycle
    exact .inl ⟨untouched_of_recordBlock recorded, rfl⟩
  | true => exact .inr ⟨decided, rewarded, ranCycle, untouched_of_recordBlock recorded⟩

theorem untouched_of_rewardBps (ran : rewardBps env rewardAmount tables = .ok result) :
    Untouched tables result := by
  obtain ⟨all, -, ran⟩ := of_bind ran
  split_ifs at ran
  · cases ran
    exact .refl _
  · obtain ⟨⟨middle, budget⟩, rewarded, ran⟩ := of_bind ran
    obtain ⟨rewardBudget, -, ran⟩ := of_bind ran
    cases ran
    exact (untouched_of_rewardBpsVotes rewarded).trans
      (by repeat constructor)

theorem untouched_of_rewardmine {actors : List AccountName} {rewardNum : Int}
    (ran : rewardmine env actors rewardNum tables = .ok (result, sent)) :
    Untouched tables result ∧ (sent = [] ∨ ∃ quantity, sent = [.relayRewardmine quantity]) := by
  obtain ⟨-, ran⟩ := of_auth ran
  obtain ⟨voteage, -, ran⟩ := of_bind ran
  obtain ⟨coinPower, -, ran⟩ := of_row ran
  dsimp only at ran
  split at ran
  · cases ran
    exact ⟨.refl _, .inl rfl⟩
  · obtain ⟨quantity, -, ran⟩ := of_bind ran
    obtain ⟨rewarded, ranBps, ran⟩ := of_bind ran
    cases ran
    exact ⟨untouched_of_rewardBps ranBps, .inr ⟨quantity, rfl⟩⟩

/-! ### Frozen tokens and votes -/

variable {actors : List AccountName} {voter bpname : AccountName} {stake : Asset}

theorem moves_freezed {freezed : AList fun _ : AccountName => FreezeInfo}
    (changed : total tokens freezed = total tokens tables.freezed + amount) :
    Moves tables { tables with freezed } amount where
  toQuiet := ⟨rfl, rfl, rfl, rfl, rfl⟩
  owed := by
    unfold Tables.owed
    dsimp only
    rw [changed]
    omega

theorem moves_setVote
    (changed : row.vote = measureAt VoteInfo.vote tables.votes (voter, bpname) + amount) :
    Moves tables (tables.setVote voter bpname row) amount where
  toQuiet := ⟨rfl, rfl, rfl, rfl, rfl⟩
  owed := by
    unfold Tables.owed Tables.setVote
    dsimp only
    rw [total_insert]
    omega

theorem moves_setVote4ram
    (changed : row.vote = measureAt VoteInfo.vote tables.votes4ram (voter, bpname) + amount) :
    Moves tables (tables.setVote4ram voter bpname row) amount where
  toQuiet := ⟨rfl, rfl, rfl, rfl, rfl⟩
  owed := by
    unfold Tables.owed Tables.setVote4ram
    dsimp only
    rw [total_insert]
    omega

section

variable (ran : settlevoter env voter bpname tables = .ok result)

include ran

theorem settlevoter_cases :
    ∃ bp row records walk totalReward, tables.bps.lookup bpname = some bp ∧
      tables.votes.lookup (voter, bpname) = some row ∧
      settleVoteRecords env row.stake
        { lastVoteage := row.voteage
          lastVoteageUpdateHeight := row.voteageUpdateHeight
          totalReward := 0
          crossDay := false } (tables.votereward bpname) = .ok (records, walk) ∧
      result = (tables.setRecords bpname records).setVote voter bpname { row with
        totalReward
        voteage := toInt64 (
          if walk.crossDay then
            row.stake * toUInt32 (tables.blockNum - walk.lastVoteageUpdateHeight)
          else row.voteage + row.stake * toUInt32 (tables.blockNum - walk.lastVoteageUpdateHeight))
        voteageUpdateHeight := tables.blockNum } := by
  obtain ⟨bp, registered, ran⟩ := of_row ran
  obtain ⟨row, found, ran⟩ := of_row ran
  obtain ⟨⟨records, walk⟩, walked, ran⟩ := of_bind ran
  obtain ⟨totalReward, -, ran⟩ := of_bind ran
  cases ran
  exact ⟨bp, row, records, walk, totalReward, registered, found, walked, rfl⟩

theorem moves_of_settlevoter : Moves tables result 0 := by
  obtain ⟨bp, row, records, walk, totalReward, -, found, -, rfl⟩ := settlevoter_cases ran
  have untouched : Untouched tables (tables.setRecords bpname records) := by repeat constructor
  apply untouched.trans_moves
  apply moves_setVote
  rw [show (tables.setRecords bpname records).votes = tables.votes from rfl, measureAt_of_some found,
    add_zero]

end

theorem release_cases (ran : release env voter change tables = .ok result) :
    ∃ freezed, result = { tables with freezed } ∧ total tokens freezed =
      total tokens tables.freezed + if change < 0 then -change else 0 := by
  unfold release at ran
  split_ifs at ran with lower
  · rw [if_pos lower]
    cases found : tables.freezed.lookup voter with
    | none =>
      rw [found] at ran
      cases ran
      refine ⟨_, rfl, ?_⟩
      rw [total_insert, measureAt_of_none found]
      unfold tokens
      dsimp only
      omega
    | some row =>
      rw [found] at ran
      obtain ⟨staked, added, ran⟩ := of_bind ran
      cases ran
      refine ⟨_, rfl, ?_⟩
      rw [total_insert, measureAt_of_some found, plus_eq_ok added]
      unfold tokens
      dsimp only
      omega
  · rw [if_neg lower]
    cases ran
    exact ⟨tables.freezed, rfl, (add_zero _).symm⟩

theorem spend_cases (ran : spend env voter change tables = .ok result) :
    ∃ freezed, result = { tables with freezed } ∧ total tokens freezed =
      total tokens tables.freezed - if 0 < change then change else 0 := by
  unfold spend at ran
  split_ifs at ran with higher
  · rw [if_pos higher]
    obtain ⟨row, found, ran⟩ := of_row ran
    obtain ⟨-, ran⟩ := of_assert ran
    obtain ⟨staked, subtracted, ran⟩ := of_bind ran
    cases ran
    refine ⟨_, rfl, ?_⟩
    rw [total_insert, measureAt_of_some found, minus_eq_ok subtracted]
    unfold tokens
    dsimp only
    omega
  · rw [if_neg higher]
    cases ran
    exact ⟨tables.freezed, rfl, (sub_zero _).symm⟩

section

variable (ran : applyVote env voter bpname change tables = .ok result)

include ran

theorem applyVote_cases :
    ∃ bp freezed, tables.bps.lookup bpname = some bp ∧
      result = { tables with freezed }.setBp bpname (bp.voted change tables.blockNum) ∧
      total tokens freezed = total tokens tables.freezed - if 0 < change then change else 0 := by
  obtain ⟨bp, found, ran⟩ := of_row ran
  obtain ⟨-, ran⟩ := of_assert ran
  obtain ⟨middle, spent, ran⟩ := of_bind ran
  obtain ⟨freezed, rfl, changed⟩ := spend_cases spent
  cases ran
  exact ⟨bp, freezed, found, rfl, changed⟩

theorem moves_of_applyVote : Moves tables result (-if 0 < change then change else 0) := by
  obtain ⟨bp, freezed, -, rfl, changed⟩ := applyVote_cases ran
  rw [sub_eq_add_neg] at changed
  exact (moves_freezed changed).trans_untouched (untouched_setBp _ _ _)

end

section

variable (ran : revote env voter bpname amount tables = .ok (result, change))

include ran

theorem revote_cases :
    ∃ settled row freezed, settlevoter env voter bpname tables = .ok settled ∧
      settled.votes.lookup (voter, bpname) = some row ∧ change = amount - row.vote ∧
      result = { settled with freezed }.setVote voter bpname { row with vote := amount } ∧
      total tokens freezed = total tokens settled.freezed + if change < 0 then -change else 0 := by
  obtain ⟨settled, ranSettle, ran⟩ := of_bind ran
  obtain ⟨row, found, ran⟩ := of_row ran
  obtain ⟨less, subtracted, ran⟩ := of_bind ran
  obtain ⟨released, ranRelease, ran⟩ := of_bind ran
  obtain ⟨freezed, rfl, changed⟩ := release_cases ranRelease
  cases ran
  exact ⟨settled, row, freezed, ranSettle, found, minus_eq_ok subtracted, rfl, changed⟩

theorem moves_of_revote : Moves tables result (if 0 < change then change else 0) := by
  obtain ⟨settled, row, freezed, ranSettle, found, rfl, rfl, changed⟩ := revote_cases ran
  have written : Moves { settled with freezed }
      ({ settled with freezed }.setVote voter bpname { row with vote := amount })
      (amount - row.vote) := by
    apply moves_setVote
    rw [show ({ settled with freezed } : Tables).votes = settled.votes from rfl,
      measureAt_of_some found]
    show amount = row.vote + (amount - row.vote)
    omega
  apply ((moves_of_settlevoter ranSettle).trans ((moves_freezed changed).trans written)).of_eq
  split_ifs <;> omega

end

theorem moves_of_vote (ran : vote env actors voter bpname stake tables = .ok result) :
    Moves tables result 0 := by
  obtain ⟨-, ran⟩ := of_auth ran
  obtain ⟨-, ran⟩ := of_assert ran
  obtain ⟨amount, valued, ran⟩ := of_bind ran
  obtain ⟨⟨middle, change⟩, changed, applied⟩ := of_bind ran
  have first : Moves tables middle (if 0 < change then change else 0) := by
    cases found : tables.votes.lookup (voter, bpname) with
    | none =>
      rw [found] at changed
      cases changed
      apply moves_setVote
      rw [measureAt_of_none found]
      obtain ⟨-, nonneg⟩ := stakeAmount_eq_ok valued
      show amount = 0 + if 0 < amount then amount else 0
      split_ifs <;> omega
    | some row =>
      rw [found] at changed
      exact moves_of_revote changed
  apply (first.trans (moves_of_applyVote applied)).of_eq
  omega

theorem moves_of_vote4ram (ran : vote4ram env actors voter bpname stake tables = .ok result) :
    Moves tables result 0 := by
  obtain ⟨-, ran⟩ := of_auth ran
  obtain ⟨_, -, ran⟩ := of_row ran
  obtain ⟨amount, valued, ran⟩ := of_bind ran
  obtain ⟨⟨middle, change⟩, changed, ran⟩ := of_bind ran
  obtain ⟨voted, applied, ran⟩ := of_bind ran
  obtain ⟨sum, -, ran⟩ := of_bind ran
  cases ran
  have first : Moves tables middle (if 0 < change then change else 0) := by
    cases found : tables.votes4ram.lookup (voter, bpname) with
    | none =>
      rw [found] at changed
      cases changed
      apply moves_setVote4ram
      rw [measureAt_of_none found]
      obtain ⟨-, nonneg⟩ := stakeAmount_eq_ok valued
      show amount = 0 + if 0 < amount then amount else 0
      split_ifs <;> omega
    | some row =>
      rw [found] at changed
      obtain ⟨less, subtracted, changed⟩ := of_bind changed
      obtain ⟨released, ranRelease, changed⟩ := of_bind changed
      obtain ⟨freezed, rfl, tokens⟩ := release_cases ranRelease
      cases changed
      rw [minus_eq_ok subtracted] at tokens ⊢
      have written : Moves { tables with freezed }
          ({ tables with freezed }.setVote4ram voter bpname
            { row with
              voteage := row.voteageAt tables.blockNum
              voteageUpdateHeight := tables.blockNum
              vote := amount }) (amount - row.vote) := by
        apply moves_setVote4ram
        rw [show ({ tables with freezed } : Tables).votes4ram = tables.votes4ram from rfl,
          measureAt_of_some found]
        show amount = row.vote + (amount - row.vote)
        omega
      apply ((moves_freezed tokens).trans written).of_eq
      split_ifs <;> omega
  have both : Moves tables voted 0 := by
    apply (first.trans (moves_of_applyVote applied)).of_eq
    omega
  exact both.trans_untouched (by repeat constructor)

theorem moves_of_freeze (ran : freeze env actors voter stake tables = .ok (result, sent)) :
    ∃ change, Moves tables result (if 0 < change then change else 0) ∧
      sent = if 0 < change then [.transfer voter env.systemAccount change "freeze"] else [] := by
  obtain ⟨-, ran⟩ := of_auth ran
  obtain ⟨amount, valued, ran⟩ := of_bind ran
  obtain ⟨⟨row, change⟩, written, ran⟩ := of_bind ran
  cases ran
  refine ⟨change, moves_freezed ?_, rfl⟩
  rw [total_insert]
  unfold frozen at written
  cases found : tables.freezed.lookup voter with
  | none =>
    rw [found] at written
    cases written
    rw [measureAt_of_none found]
    obtain ⟨-, nonneg⟩ := stakeAmount_eq_ok valued
    unfold tokens
    dsimp only
    split_ifs <;> omega
  | some old =>
    rw [found] at written
    obtain ⟨less, subtracted, written⟩ := of_bind written
    rw [measureAt_of_some found]
    have difference := minus_eq_ok subtracted
    split at written
    · obtain ⟨unstaking, added, written⟩ := of_bind written
      cases written
      have sum := plus_eq_ok added
      unfold tokens
      dsimp only
      split_ifs <;> omega
    · cases written
      unfold tokens
      dsimp only
      split_ifs <;> omega

theorem moves_of_unfreeze (ran : unfreeze env actors voter tables = .ok (result, sent)) :
    ∃ amount, 0 < amount ∧ Moves tables result (-amount) ∧
      sent = [.transfer env.systemAccount voter amount "unfreeze"] := by
  obtain ⟨-, ran⟩ := of_auth ran
  obtain ⟨row, found, ran⟩ := of_row ran
  obtain ⟨-, ran⟩ := of_assert ran
  obtain ⟨positive, ran⟩ := of_assert ran
  cases ran
  refine ⟨row.unstaking, positive, moves_freezed ?_, rfl⟩
  rw [total_insert, measureAt_of_some found]
  unfold tokens
  dsimp only
  omega

theorem moves_of_fee {voteage : Int} (ran : fee actors voter bpname voteage tables = .ok result) :
    Moves tables result 0 := by
  obtain ⟨-, ran⟩ := of_auth ran
  obtain ⟨bp, -, ran⟩ := of_row ran
  obtain ⟨row, found, ran⟩ := of_row ran
  obtain ⟨-, ran⟩ := of_assert ran
  cases ran
  refine Moves.trans_untouched ?_ (untouched_setBp _ _ _)
  apply moves_setVote
  rw [measureAt_of_some found, add_zero]

theorem claimedReward_cases {bp : BpInfo} {rewardAll : Int}
    (claimed : claimedReward env bpname receiver bp row tables = .ok (result, rewardAll)) :
    result = tables ∨ result = tables.setBp bpname { bp with rewardsBlock := 0 } := by
  unfold claimedReward at claimed
  split_ifs at claimed
  · obtain ⟨all, -, claimed⟩ := of_bind claimed
    cases claimed
    exact .inr rfl
  · cases claimed
    exact .inl rfl

theorem moves_of_claimvote
    (ran : claimvote env actors bpname receiver tables = .ok (result, sent)) :
    Moves tables result 0 ∧ ∃ amount, sent = [.castcoin env.rewardAccount receiver amount] := by
  obtain ⟨-, ran⟩ := of_auth ran
  obtain ⟨settled, ranSettle, ran⟩ := of_bind ran
  obtain ⟨bp, -, ran⟩ := of_row ran
  obtain ⟨row, found, ran⟩ := of_row ran
  obtain ⟨⟨claimed, rewardAll⟩, ranClaim, ran⟩ := of_bind ran
  obtain ⟨-, ran⟩ := of_assert ran
  cases ran
  refine ⟨?_, rewardAll, rfl⟩
  have untouched : Untouched settled claimed := by
    rcases claimedReward_cases ranClaim with rfl | rfl
    · exact .refl _
    · exact untouched_setBp _ _ _
  apply ((moves_of_settlevoter ranSettle).trans (untouched.trans_moves _)).of_eq (add_zero 0)
  apply moves_setVote
  rw [untouched.votes, measureAt_of_some found, add_zero]

/-! ### Producers -/

theorem untouched_of_updatebp {blockSigningKey commissionRate : Nat} {url : String}
    (ran : updatebp actors bpname blockSigningKey commissionRate url tables = .ok result) :
    Untouched tables result := by
  obtain ⟨-, ran⟩ := of_auth ran
  obtain ⟨-, ran⟩ := of_assert ran
  obtain ⟨-, ran⟩ := of_assert ran
  cases ran
  exact untouched_setBp _ _ _

theorem untouched_of_removebp (ran : removebp env actors bpname tables = .ok result) :
    Untouched tables result := by
  obtain ⟨-, ran⟩ := of_auth ran
  obtain ⟨bp, -, ran⟩ := of_row ran
  cases ran
  exact untouched_setBp _ _ _

theorem untouched_of_addmortgage {payer : AccountName} {quantity : Asset}
    (ran : addmortgage env actors bpname payer quantity tables = .ok (result, sent)) :
    Untouched tables result ∧
      sent = [.transfer payer env.rewardAccount quantity.amount "add mortgage"] := by
  obtain ⟨-, ran⟩ := of_auth ran
  obtain ⟨-, ran⟩ := of_assert ran
  obtain ⟨bp, -, ran⟩ := of_row ran
  obtain ⟨-, ran⟩ := of_assert ran
  obtain ⟨left, -, ran⟩ := of_bind ran
  cases ran
  exact ⟨untouched_setBp _ _ _, rfl⟩

theorem untouched_of_claimmortgage {quantity : Asset}
    (ran : claimmortgage env actors bpname receiver quantity tables = .ok (result, sent)) :
    Untouched tables result ∧
      sent = [.transfer env.rewardAccount receiver quantity.amount "claim bp mortgage"] := by
  obtain ⟨-, ran⟩ := of_auth ran
  obtain ⟨bp, -, ran⟩ := of_row ran
  obtain ⟨-, ran⟩ := of_assert ran
  obtain ⟨-, ran⟩ := of_assert ran
  obtain ⟨left, -, ran⟩ := of_bind ran
  cases ran
  exact ⟨untouched_setBp _ _ _, rfl⟩

theorem untouched_of_claimbp
    (ran : claimbp env actors bpname receiver tables = .ok (result, sent)) :
    Untouched tables result ∧
      (sent = [] ∨ ∃ amount, sent = [.castcoin env.rewardAccount receiver amount]) := by
  obtain ⟨-, ran⟩ := of_auth ran
  obtain ⟨bp, -, ran⟩ := of_row ran
  obtain ⟨reward, -, ran⟩ := of_row ran
  obtain ⟨product, -, ran⟩ := of_bind ran
  obtain ⟨claimBlock, -, ran⟩ := of_bind ran
  obtain ⟨rewardBlockOut, -, ran⟩ := of_bind ran
  obtain ⟨-, ran⟩ := of_assert ran
  split at ran
  · obtain ⟨rewardBudget, -, ran⟩ := of_bind ran
    cases ran
    exact ⟨by repeat constructor, .inl rfl⟩
  · cases ran
    exact ⟨by repeat constructor, .inr ⟨claimBlock, rfl⟩⟩

/-! ### Motions -/

theorem moves_punishbps {punishbps : AList fun _ : AccountName => PunishBpInfo}
    (apppunishbps : AList fun _ : AccountName => List AccountName)
    (changed : total (fun _ => punishBpFee) punishbps =
      total (fun _ => punishBpFee) tables.punishbps + amount) :
    Moves tables { tables with punishbps, apppunishbps } amount where
  toQuiet := ⟨rfl, rfl, rfl, rfl, rfl⟩
  owed := by
    unfold Tables.owed
    dsimp only
    rw [changed]
    omega

/-- A motion comes with its deposit, and the deposit of the one it replaces is returned. -/
theorem moves_of_punishbp (ran : punishbp env actors initiator bpname tables = .ok (result, sent)) :
    Moves tables result punishBpFee ∧
        sent = [.transfer initiator env.systemAccount punishBpFee "punishbp deposit"] ∨
      Moves tables result 0 ∧ ∃ earlier,
        sent = [.transfer initiator env.systemAccount punishBpFee "punishbp deposit",
          .transfer env.systemAccount earlier punishBpFee "cancle punishbp return deposit"] := by
  obtain ⟨-, ran⟩ := of_auth ran
  obtain ⟨drainNum, -, ran⟩ := of_row ran
  obtain ⟨-, ran⟩ := of_assert ran
  obtain ⟨-, ran⟩ := of_assert ran
  cases ran
  cases found : tables.punishbps.lookup bpname with
  | none =>
    refine .inl ⟨moves_punishbps _ ?_, rfl⟩
    rw [total_insert, measureAt_of_none found]
    omega
  | some motion =>
    refine .inr ⟨moves_punishbps _ ?_, motion.initiator, rfl⟩
    rw [total_insert, measureAt_of_some found]
    omega

theorem moves_of_canclepunish
    (ran : canclepunish env actors initiator bpname tables = .ok (result, sent)) :
    Moves tables result (-punishBpFee) ∧ (sent = [] ∨ sent =
      [.transfer env.systemAccount initiator punishBpFee "cancle punishbp return deposit"]) := by
  obtain ⟨-, ran⟩ := of_auth ran
  obtain ⟨motion, found, ran⟩ := of_row ran
  obtain ⟨-, ran⟩ := of_assert ran
  cases ran
  constructor
  · apply moves_punishbps
    rw [total_erase, measureAt_of_some found]
    omega
  · split_ifs
    · exact .inr rfl
    · exact .inl rfl

/-- The punishment pays the initiator and the approvers what the producer has lost. -/
theorem moves_of_execPunishBp (ran : execPunishBp env bpname tables = .ok (result, sent)) :
    result = tables ∧ sent = [] ∨
      ∃ (motion : PunishBpInfo) (approvals super : List AccountName) (bp : BpInfo),
        result.punishbps = tables.punishbps.erase bpname ∧
        result.apppunishbps = tables.apppunishbps.erase bpname ∧
        tables.apppunishbps.lookup bpname = some approvals ∧ tables.newestSchedule = .ok super ∧
        tables.bps.lookup bpname = some bp ∧ Moves tables result (-punishBpFee) ∧
        env.constants.numOfTopBps * 2 / 3 ≤ (effectiveApprovals super approvals).length ∧
        sent = .transfer env.systemAccount motion.initiator (bp.remainPunish.tdiv 2 + punishBpFee)
            "cancle punishbp deposit" ::
          (effectiveApprovals super approvals).map fun approver =>
            .transfer env.systemAccount approver
              ((bp.remainPunish.tdiv 2).tdiv (effectiveApprovals super approvals).length)
              "cancle punishbp deposit" := by
  obtain ⟨motion, foundMotion, ran⟩ := of_row ran
  obtain ⟨approvals, foundApprovals, ran⟩ := of_row ran
  obtain ⟨super, newest, ran⟩ := of_bind ran
  dsimp only at ran
  split at ran
  · cases ran
    exact .inl ⟨rfl, rfl⟩
  next enough =>
    cases foundBp : tables.bps.lookup bpname with
    | none =>
      rw [foundBp] at ran
      cases ran
      exact .inl ⟨rfl, rfl⟩
    | some bp =>
      rw [foundBp] at ran
      obtain ⟨rewardInitiator, half, ran⟩ := of_bind ran
      obtain ⟨returned, added, ran⟩ := of_bind ran
      obtain ⟨rewardApprove, part, ran⟩ := of_bind ran
      cases ran
      obtain ⟨-, rfl⟩ := divide_eq_ok half
      obtain ⟨-, rfl⟩ := divide_eq_ok part
      rw [plus_eq_ok added]
      refine .inr ⟨motion, approvals, super, bp, rfl, rfl, foundApprovals, newest, rfl, ?_,
        not_lt.mp enough, rfl⟩
      have written : Moves tables { tables with
          punishbps := tables.punishbps.erase bpname
          apppunishbps := tables.apppunishbps.erase bpname } (-punishBpFee) := by
        apply moves_punishbps
        rw [total_erase, measureAt_of_some foundMotion]
        omega
      exact written.trans_untouched (by repeat constructor)

theorem untouched_of_unapppunish
    (ran : unapppunish actors bpname punishbpname tables = .ok result) :
    Untouched tables result := by
  obtain ⟨-, ran⟩ := of_auth ran
  obtain ⟨_, -, ran⟩ := of_row ran
  cases ran
  repeat constructor

theorem untouched_of_bailpunish
    (ran : bailpunish env actors punishbpname tables = .ok (result, sent)) :
    Untouched tables result ∧
      sent = [.transfer punishbpname env.systemAccount bailPunishFee "bail punish fee"] := by
  obtain ⟨-, ran⟩ := of_auth ran
  obtain ⟨bp, -, ran⟩ := of_row ran
  obtain ⟨-, ran⟩ := of_assert ran
  cases ran
  exact ⟨untouched_setBp _ _ _, rfl⟩

def Tables.approvals (tables : Tables) (bpname : AccountName) : List AccountName :=
  (tables.apppunishbps.lookup bpname).getD []

def Tables.approve (tables : Tables) (bpname punishbpname : AccountName) : Tables :=
  { tables with
    apppunishbps := tables.apppunishbps.insert punishbpname
      (tables.approvals punishbpname ++ [bpname]) }

theorem untouched_approve (tables : Tables) (bpname punishbpname : AccountName) :
    Untouched tables (tables.approve bpname punishbpname) :=
  by repeat constructor

theorem apppunish_cases
    (ran : apppunish env actors bpname punishbpname tables = .ok (result, sent)) :
    bpname ∉ tables.approvals punishbpname ∧ tables.punishbps.lookup punishbpname ≠ none ∧
      (result = tables.approve bpname punishbpname ∧ sent = [] ∨
        env.constants.numOfTopBps * 2 / 3 < (tables.approvals punishbpname).length + 1 ∧
          execPunishBp env punishbpname (tables.approve bpname punishbpname) =
            .ok (result, sent)) := by
  obtain ⟨-, ran⟩ := of_auth ran
  obtain ⟨super, -, ran⟩ := of_bind ran
  obtain ⟨-, ran⟩ := of_assert ran
  obtain ⟨motion, found, ran⟩ := of_row ran
  obtain ⟨-, ran⟩ := of_assert ran
  obtain ⟨fresh, ran⟩ := of_assert ran
  refine ⟨fresh, by rw [found]; exact nofun, ?_⟩
  dsimp only at ran
  split at ran
  next enough => exact .inr ⟨enough, ran⟩
  · cases ran
    exact .inl ⟨rfl, rfl⟩

/-! ### Inline actions -/

theorem transfer_cases (ran : transfer env sender recipient quantity memo tables = .ok result) :
    sender ≠ recipient ∧ 0 < quantity ∧ result = { tables with
      balances := Function.update (Function.update tables.balances sender
        (tables.balances sender - quantity)) recipient (tables.balances recipient + quantity) } := by
  obtain ⟨different, ran⟩ := of_assert ran
  obtain ⟨-, ran⟩ := of_assert ran
  obtain ⟨positive, ran⟩ := of_assert ran
  obtain ⟨-, ran⟩ := of_assert ran
  obtain ⟨middle, subtracted, ran⟩ := of_bind ran
  obtain ⟨-, subtracted⟩ := of_assert subtracted
  cases subtracted
  obtain ⟨balance, added, ran⟩ := of_bind ran
  cases ran
  refine ⟨different, positive, ?_⟩
  rw [plus_eq_ok added]
  dsimp only
  rw [Function.update_of_ne (Ne.symm different)]

theorem issue_cases (ran : issue env recipient quantity memo tables = .ok (result, sent)) :
    env.issuer = env.systemAccount ∧ 0 < quantity ∧
      result = { tables with
        supply := tables.supply + quantity
        balances := Function.update tables.balances env.issuer
          (tables.balances env.issuer + quantity) } ∧
      sent = if recipient = env.issuer then [] else [.transfer env.issuer recipient quantity memo] := by
  obtain ⟨-, ran⟩ := of_assert ran
  obtain ⟨authorized, ran⟩ := of_auth ran
  obtain ⟨positive, ran⟩ := of_assert ran
  obtain ⟨-, ran⟩ := of_assert ran
  obtain ⟨middle, added, ran⟩ := of_bind ran
  obtain ⟨balance, sum, added⟩ := of_bind added
  cases added
  cases ran
  rw [plus_eq_ok sum]
  exact ⟨List.mem_singleton.mp authorized, positive, rfl, rfl⟩

theorem castcoin_cases (ran : castcoin env sender recipient quantity tables = .ok result) :
    sender = env.rewardAccount ∧ result = { tables with
      balances := Function.update tables.balances sender (tables.balances sender - quantity) } := by
  obtain ⟨rfl, ran⟩ := of_assert ran
  obtain ⟨-, ran⟩ := of_assert ran
  obtain ⟨-, ran⟩ := of_assert ran
  obtain ⟨-, ran⟩ := of_assert ran
  obtain ⟨-, ran⟩ := of_assert ran
  cases ran
  exact ⟨rfl, rfl⟩

theorem executeInline_cases (ran : executeInline env tables = .ok (result, sent)) :
    ∃ next rest, tables.inline = next :: rest ∧
      executeSent env { tables with inline := rest } next = .ok (result, sent) := by
  unfold executeInline at ran
  split at ran
  · cases ran
  next next rest pending => exact ⟨next, rest, pending, ran⟩

/-- Every action but `onblock` leaves the tokens, the pending actions and the history alone. -/
theorem quiet_of_execute {call : Call} (ran : execute env tables call = .ok (result, sent)) :
    Quiet tables result ∨ call = .inline ∨ call = .nextBlock ∨
      ∃ bpname scheduleVersion activeProducers,
        call = .onblock bpname scheduleVersion activeProducers := by
  cases call with
  | updatebp => exact .inl (untouched_of_updatebp (ok_of_silent ran).1).toQuiet
  | removebp => exact .inl (untouched_of_removebp (ok_of_silent ran).1).toQuiet
  | freeze =>
    obtain ⟨change, moves, -⟩ := moves_of_freeze ran
    exact .inl moves.toQuiet
  | unfreeze =>
    obtain ⟨amount, -, moves, -⟩ := moves_of_unfreeze ran
    exact .inl moves.toQuiet
  | vote => exact .inl (moves_of_vote (ok_of_silent ran).1).toQuiet
  | vote4ram => exact .inl (moves_of_vote4ram (ok_of_silent ran).1).toQuiet
  | vote4ram2 =>
    obtain ⟨⟨frozen, rest⟩, ranFreeze, ran⟩ := of_bind ran
    obtain ⟨voted, ranVote, ran⟩ := of_bind ran
    cases ran
    obtain ⟨change, moves, -⟩ := moves_of_freeze ranFreeze
    exact .inl (moves.toQuiet.trans (moves_of_vote4ram ranVote).toQuiet)
  | fee => exact .inl (moves_of_fee (ok_of_silent ran).1).toQuiet
  | onblock bpname scheduleVersion activeProducers =>
    exact .inr (.inr (.inr ⟨bpname, scheduleVersion, activeProducers, rfl⟩))
  | rewardmine => exact .inl (untouched_of_rewardmine ran).1.toQuiet
  | addmortgage => exact .inl (untouched_of_addmortgage ran).1.toQuiet
  | claimmortgage => exact .inl (untouched_of_claimmortgage ran).1.toQuiet
  | claimbp => exact .inl (untouched_of_claimbp ran).1.toQuiet
  | claimvote => exact .inl (moves_of_claimvote ran).1.toQuiet
  | punishbp =>
    rcases moves_of_punishbp ran with ⟨moves, -⟩ | ⟨moves, -⟩
    · exact .inl moves.toQuiet
    · exact .inl moves.toQuiet
  | canclepunish => exact .inl (moves_of_canclepunish ran).1.toQuiet
  | apppunish actors bpname punishbpname =>
    have untouched := untouched_approve tables bpname punishbpname
    obtain ⟨-, -, ⟨rfl, -⟩ | ⟨-, executed⟩⟩ := apppunish_cases ran
    · exact .inl untouched.toQuiet
    · rcases moves_of_execPunishBp executed with ⟨rfl, -⟩ | ⟨_, _, _, _, -, -, -, -, -, moves, -⟩
      · exact .inl untouched.toQuiet
      · exact .inl (untouched.toQuiet.trans moves.toQuiet)
  | unapppunish => exact .inl (untouched_of_unapppunish (ok_of_silent ran).1).toQuiet
  | bailpunish => exact .inl (untouched_of_bailpunish ran).1.toQuiet
  | inline => exact .inr (.inl rfl)
  | nextBlock => exact .inr (.inr (.inl rfl))

end CodexRelay.Contracts.ForceSystem
