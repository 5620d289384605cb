import CodexRelay.Contracts.ForceSystem.Effects

/-!
Contract: the system account can pay what it owes its voters.

Stakes and deposits come to the system account, and mortgages to the reward account. A punishment
takes from the mortgage of a producer, but is paid out by the system account, from the tokens of the
voters.

Owns:
- what a pending transfer is worth to the system account, and its surplus;
- the step lemma of every action, and the theorem over runs.
-/

namespace CodexRelay.Contracts.ForceSystem

open Chain Library List Function

variable {env : Environment} {tables result : Tables} {sent : List Sent}

variable {account voter bpname : AccountName} {quantity : Int} {memo : String}
  {actors : List AccountName}

variable {sender recipient initiator : AccountName} {amount : Int}

/-! ### Pending transfers -/

/-- What a pending action is worth to an account. A transfer to oneself or of nothing will throw. -/
def Sent.worth (account : AccountName) : Sent → Int
  | .transfer sender recipient quantity _ =>
    if quantity ≤ 0 then 0
    else if recipient = account then quantity
    else if sender = account then -quantity
    else 0
  | _ => 0

def pending (account : AccountName) (inline : List Sent) : Int :=
  (inline.map (Sent.worth account)).sum

@[simp] theorem pending_nil (account : AccountName) : pending account [] = 0 := rfl

@[simp] theorem pending_cons (account : AccountName) (next : Sent) (rest : List Sent) :
    pending account (next :: rest) = next.worth account + pending account rest := by
  unfold pending
  rw [map_cons, sum_cons]

@[simp] theorem pending_append (account : AccountName) (left right : List Sent) :
    pending account (left ++ right) = pending account left + pending account right := by
  unfold pending
  rw [map_append, sum_append]

theorem worth_transfer (account sender recipient : AccountName) (quantity : Int) (memo : String) :
    (Sent.transfer sender recipient quantity memo).worth account =
      if quantity ≤ 0 then 0
      else if recipient = account then quantity
      else if sender = account then -quantity
      else 0 :=
  rfl

theorem worth_in (positive : 0 < quantity) :
    (Sent.transfer sender account quantity memo).worth account = quantity := by
  rw [worth_transfer, if_neg (by omega), if_pos rfl]

theorem le_worth_out {bound : Int} (nonneg : 0 ≤ bound) (le : quantity ≤ bound) :
    -bound ≤ (Sent.transfer account recipient quantity memo).worth account := by
  rw [worth_transfer]
  split_ifs <;> omega

theorem worth_nonneg (other : sender ≠ account) :
    0 ≤ (Sent.transfer sender recipient quantity memo).worth account := by
  rw [worth_transfer, if_neg other]
  split_ifs <;> omega

/-- What the system account has beyond what it owes, with everything that is pending. -/
def Tables.surplus (env : Environment) (tables : Tables) : Int :=
  tables.balances env.systemAccount + pending env.systemAccount tables.inline - tables.owed

/-! ### Punishments -/

theorem tdiv_nonpos {value : Int} (nonpos : value ≤ 0) (count : Nat) : value.tdiv count ≤ 0 := by
  rw [← neg_neg value, Int.neg_tdiv]
  have quotient := Int.tdiv_nonneg (neg_nonneg.mpr nonpos) (Int.natCast_nonneg count)
  omega

theorem length_mul_max_le {half : Int} (count : Nat) :
    count * max (half.tdiv count) 0 ≤ max half 0 := by
  rcases le_or_gt 0 half with nonneg | negative
  · have part := Int.tdiv_nonneg nonneg (Int.natCast_nonneg count)
    rw [max_eq_left part, max_eq_left nonneg]
    exact Int.mul_tdiv_self_le nonneg
  · rw [max_eq_right (tdiv_nonpos negative.le count), mul_zero]
    exact le_max_right _ _

theorem le_pending_approvals {account : AccountName} {part : Int} {memo : String}
    (approvers : List AccountName) :
    -(approvers.length * max part 0) ≤ pending account (approvers.map fun approver =>
      .transfer account approver part memo) := by
  induction approvers with
  | nil => simp
  | cons approver approvers ih =>
    have first : -max part 0 ≤ (Sent.transfer account approver part memo).worth account :=
      le_worth_out (le_max_right part 0) (le_max_left part 0)
    rw [map_cons, pending_cons, length_cons]
    push_cast
    rw [add_mul, one_mul]
    omega

/-- A punishment pays no more than the deposit of the motion and what the producer has lost. -/
theorem le_pending_punishment {account initiator : AccountName} {remain : Int} {memo : String}
    (approvers : List AccountName) :
    -(punishBpFee + max remain 0) ≤ pending account
      (.transfer account initiator (remain.tdiv 2 + punishBpFee) memo :: approvers.map fun approver =>
        .transfer account approver ((remain.tdiv 2).tdiv approvers.length) memo) := by
  have halves : (2 : Nat) * max (remain.tdiv 2) 0 ≤ max remain 0 := length_mul_max_le 2
  have first : -(punishBpFee + max (remain.tdiv 2) 0) ≤
      (Sent.transfer account initiator (remain.tdiv 2 + punishBpFee) memo).worth account := by
    apply le_worth_out
    · unfold punishBpFee
      omega
    · omega
  have parts := @length_mul_max_le (remain.tdiv 2) approvers.length
  have rest := @le_pending_approvals account ((remain.tdiv 2).tdiv approvers.length) memo approvers
  rw [pending_cons]
  omega

/-! ### Actions -/

theorem surplus_with_sent (moves : Moves tables result amount) :
    Tables.surplus env { result with inline := sent ++ result.inline } =
      tables.surplus env + pending env.systemAccount sent - amount := by
  unfold Tables.surplus
  rw [show Tables.owed { result with inline := sent ++ result.inline } = result.owed from rfl,
    moves.owed, pending_append]
  dsimp only
  rw [moves.balances, moves.inline]
  omega

theorem surplus_of_moves (moves : Moves tables result amount)
    (funded : amount ≤ pending env.systemAccount sent) :
    tables.surplus env ≤ Tables.surplus env { result with inline := sent ++ result.inline } := by
  rw [surplus_with_sent moves]
  omega

theorem surplus_of_untouched (untouched : Untouched tables result)
    (funded : 0 ≤ pending env.systemAccount sent) :
    tables.surplus env ≤ Tables.surplus env { result with inline := sent ++ result.inline } :=
  surplus_of_moves untouched.moves funded

theorem funded_of_freeze {change : Int} :
    (if 0 < change then change else 0) ≤ pending env.systemAccount
      (if 0 < change then [.transfer voter env.systemAccount change "freeze"] else []) := by
  split_ifs with positive
  · rw [pending_cons, worth_in positive, pending_nil, add_zero]
  · exact le_rfl

theorem surplus_of_vote4ram2 {stake : Asset}
    (ran : vote4ram2 env actors voter bpname stake tables = .ok (result, sent)) :
    tables.surplus env ≤ Tables.surplus env { result with inline := sent ++ result.inline } := by
  obtain ⟨⟨frozen, rest⟩, ranFreeze, ran⟩ := of_bind ran
  obtain ⟨voted, ranVote, ran⟩ := of_bind ran
  cases ran
  obtain ⟨change, moves, rfl⟩ := moves_of_freeze ranFreeze
  apply surplus_of_moves (moves.trans (moves_of_vote4ram ranVote))
  rw [add_zero]
  exact funded_of_freeze

theorem surplus_of_punishbp
    (ran : punishbp env actors initiator bpname tables = .ok (result, sent)) :
    tables.surplus env ≤ Tables.surplus env { result with inline := sent ++ result.inline } := by
  have positive : 0 < punishBpFee := by decide
  rcases moves_of_punishbp ran with ⟨moves, rfl⟩ | ⟨moves, earlier, rfl⟩
  · apply surplus_of_moves moves
    rw [pending_cons, worth_in positive, pending_nil, add_zero]
  · apply surplus_of_moves moves
    have returned : -punishBpFee ≤ (Sent.transfer env.systemAccount earlier punishBpFee
        "cancle punishbp return deposit").worth env.systemAccount :=
      le_worth_out positive.le le_rfl
    rw [pending_cons, worth_in positive, pending_cons, pending_nil]
    omega

theorem surplus_of_canclepunish
    (ran : canclepunish env actors initiator bpname tables = .ok (result, sent)) :
    tables.surplus env ≤ Tables.surplus env { result with inline := sent ++ result.inline } := by
  obtain ⟨moves, rfl | rfl⟩ := moves_of_canclepunish ran
  · apply surplus_of_moves moves
    rw [pending_nil]
    decide
  · apply surplus_of_moves moves
    rw [pending_cons, pending_nil, add_zero]
    exact le_worth_out (by decide) le_rfl

theorem surplus_of_unfreeze (ran : unfreeze env actors voter tables = .ok (result, sent)) :
    tables.surplus env ≤ Tables.surplus env { result with inline := sent ++ result.inline } := by
  obtain ⟨amount, positive, moves, rfl⟩ := moves_of_unfreeze ran
  apply surplus_of_moves moves
  rw [pending_cons, pending_nil, add_zero]
  exact le_worth_out positive.le le_rfl

theorem surplus_of_onblock {scheduleVersion : Nat} {activeProducers : List AccountName}
    (ran : onblock env bpname scheduleVersion activeProducers tables = .ok (result, sent)) :
    tables.surplus env ≤ Tables.surplus env { result with inline := sent ++ result.inline } := by
  rcases onblock_cases ran with ⟨untouched, rfl⟩ | ⟨ends, rewarded, ranCycle, untouched⟩
  · exact surplus_of_untouched untouched le_rfl
  · obtain ⟨cycle, rfl⟩ := untouched_of_rewardCycle ranCycle
    have same : tables.surplus env = (tables.withCycle env.constants).surplus env := rfl
    rw [same]
    apply surplus_of_untouched (cycle.trans untouched)
    apply le_of_eq
    split_ifs
    · rfl
    · rfl

theorem worth_of_transfer {account sender recipient : AccountName} {quantity : Int} {memo : String}
    (ran : transfer env sender recipient quantity memo tables = .ok result) :
    result.balances account =
      tables.balances account + (Sent.transfer sender recipient quantity memo).worth account := by
  obtain ⟨different, positive, rfl⟩ := transfer_cases ran
  rw [worth_transfer, if_neg (by omega)]
  dsimp only
  by_cases received : recipient = account
  · subst received
    rw [update_self, if_pos rfl]
  · rw [update_of_ne (Ne.symm received), if_neg received]
    by_cases given : sender = account
    · subst given
      rw [update_self, if_pos rfl]
      omega
    · rw [update_of_ne (Ne.symm given), if_neg given, add_zero]

theorem surplus_of_executeSent {next : Sent}
    (ran : executeSent env tables next = .ok (result, sent)) :
    result.inline = tables.inline ∧ result.owed = tables.owed ∧
      tables.balances env.systemAccount + next.worth env.systemAccount ≤
        result.balances env.systemAccount + pending env.systemAccount sent := by
  cases next with
  | transfer sender recipient quantity memo =>
    obtain ⟨moves, rfl⟩ := ok_of_silent ran
    have moved := @worth_of_transfer _ _ _ env.systemAccount _ _ _ _ moves
    obtain ⟨-, -, rfl⟩ := transfer_cases moves
    refine ⟨rfl, rfl, ?_⟩
    rw [moved, pending_nil, add_zero]
  | issue recipient quantity memo =>
    obtain ⟨system, positive, rfl, rfl⟩ := issue_cases ran
    refine ⟨rfl, rfl, ?_⟩
    rw [system]
    dsimp only
    rw [update_self, show (Sent.issue recipient quantity memo).worth _ = 0 from rfl]
    split_ifs
    · rw [pending_nil]
      omega
    · have passed : -quantity ≤ (Sent.transfer env.systemAccount recipient quantity memo).worth
          env.systemAccount :=
        le_worth_out positive.le le_rfl
      rw [pending_cons, pending_nil]
      omega
  | castcoin sender recipient quantity =>
    obtain ⟨casts, rfl⟩ := ok_of_silent ran
    obtain ⟨rfl, rfl⟩ := castcoin_cases casts
    refine ⟨rfl, rfl, ?_⟩
    dsimp only
    rw [update_of_ne env.reward_ne_system.symm]
    exact le_rfl
  | settlemine =>
    cases ran
    exact ⟨rfl, rfl, le_rfl⟩
  | activemine =>
    cases ran
    exact ⟨rfl, rfl, le_rfl⟩
  | relayRewardmine =>
    cases ran
    exact ⟨rfl, rfl, le_rfl⟩
  | rewardmine =>
    obtain ⟨untouched, sends⟩ := untouched_of_rewardmine ran
    refine ⟨untouched.inline, untouched.owed, ?_⟩
    rw [untouched.balances]
    rcases sends with rfl | ⟨quantity, rfl⟩
    · exact le_rfl
    · exact le_rfl

theorem surplus_of_inline (ran : executeInline env tables = .ok (result, sent)) :
    tables.surplus env ≤ Tables.surplus env { result with inline := sent ++ result.inline } := by
  obtain ⟨next, rest, listed, ran⟩ := executeInline_cases ran
  obtain ⟨inline, owed, moved⟩ := surplus_of_executeSent ran
  unfold Tables.surplus
  rw [show Tables.owed { result with inline := sent ++ result.inline } = result.owed from rfl,
    owed, pending_append, listed, pending_cons]
  dsimp only at inline moved ⊢
  rw [inline]
  show _ ≤ _ - tables.owed
  omega

/-! ### Steps -/

/-- When with an approval two thirds of the newest schedule have approved, the surplus covers what the
producer has lost, and the system account pays for no mortgage. -/
def PunishmentCovered (env : Environment) (tables : Tables) : Call → Prop
  | .addmortgage _ _ payer _ => payer ≠ env.systemAccount
  | .apppunish _ bpname punishbpname =>
    env.constants.numOfTopBps * 2 / 3 < (tables.approvals punishbpname).length + 1 →
      ∀ super ∈ tables.newestSchedule.toOption, env.constants.numOfTopBps * 2 / 3 ≤
          (effectiveApprovals super (tables.approvals punishbpname ++ [bpname])).length →
        ∀ bp ∈ tables.bps.lookup punishbpname, bp.remainPunish ≤ tables.surplus env
  | _ => True

instance (env : Environment) (tables : Tables) : (call : Call) →
    Decidable (PunishmentCovered env tables call)
  | .addmortgage _ _ payer _ => inferInstanceAs (Decidable (payer ≠ env.systemAccount))
  | .apppunish .. => inferInstanceAs (Decidable (_ < _ → ∀ super ∈ _, _ ≤ _ → ∀ bp ∈ _, _ ≤ _))
  | .updatebp .. | .removebp .. | .freeze .. | .unfreeze .. | .vote .. | .vote4ram ..
  | .vote4ram2 .. | .fee .. | .onblock .. | .rewardmine .. | .claimmortgage .. | .claimbp ..
  | .claimvote .. | .punishbp .. | .canclepunish .. | .unapppunish .. | .bailpunish ..
  | .inline | .nextBlock => inferInstanceAs (Decidable True)

theorem surplus_of_apppunish {punishbpname : AccountName} (nonneg : 0 ≤ tables.surplus env)
    (covered : PunishmentCovered env tables (.apppunish actors bpname punishbpname))
    (ran : apppunish env actors bpname punishbpname tables = .ok (result, sent)) :
    0 ≤ Tables.surplus env { result with inline := sent ++ result.inline } := by
  have untouched := untouched_approve tables bpname punishbpname
  obtain ⟨-, -, ⟨rfl, rfl⟩ | ⟨enough, executed⟩⟩ := apppunish_cases ran
  · exact nonneg.trans (surplus_of_untouched untouched le_rfl)
  · rcases moves_of_execPunishBp executed with
      ⟨rfl, rfl⟩ | ⟨motion, approvals, super, bp, -, -, listed, newest, found, moves, quorum, rfl⟩
    · exact nonneg.trans (surplus_of_untouched untouched le_rfl)
    · cases (AList.lookup_insert _).symm.trans listed
      have isNewest : super ∈ tables.newestSchedule.toOption := by
        rw [show tables.newestSchedule = .ok super from newest]
        rfl
      have lost : bp.remainPunish ≤ tables.surplus env := covered enough super isNewest quorum bp found
      have paid := @le_pending_punishment env.systemAccount motion.initiator bp.remainPunish
        "cancle punishbp deposit"
        (effectiveApprovals super (tables.approvals punishbpname ++ [bpname]))
      rw [surplus_with_sent (untouched.trans_moves moves)]
      omega

theorem surplus_of_step {call : Call} (nonneg : 0 ≤ tables.surplus env)
    (covered : PunishmentCovered env tables call) (ran : step env tables call = .ok result) :
    0 ≤ result.surplus env := by
  obtain ⟨⟨after, sent⟩, executed, returned⟩ := of_bind ran
  cases returned
  cases call with
  | updatebp =>
    obtain ⟨silently, rfl⟩ := ok_of_silent executed
    exact nonneg.trans (surplus_of_untouched (untouched_of_updatebp silently) le_rfl)
  | removebp =>
    obtain ⟨silently, rfl⟩ := ok_of_silent executed
    exact nonneg.trans (surplus_of_untouched (untouched_of_removebp silently) le_rfl)
  | freeze =>
    obtain ⟨change, moves, rfl⟩ := moves_of_freeze executed
    exact nonneg.trans (surplus_of_moves moves funded_of_freeze)
  | unfreeze => exact nonneg.trans (surplus_of_unfreeze executed)
  | vote =>
    obtain ⟨silently, rfl⟩ := ok_of_silent executed
    exact nonneg.trans (surplus_of_moves (moves_of_vote silently) le_rfl)
  | vote4ram =>
    obtain ⟨silently, rfl⟩ := ok_of_silent executed
    exact nonneg.trans (surplus_of_moves (moves_of_vote4ram silently) le_rfl)
  | vote4ram2 => exact nonneg.trans (surplus_of_vote4ram2 executed)
  | fee =>
    obtain ⟨silently, rfl⟩ := ok_of_silent executed
    exact nonneg.trans (surplus_of_moves (moves_of_fee silently) le_rfl)
  | onblock => exact nonneg.trans (surplus_of_onblock executed)
  | rewardmine =>
    obtain ⟨untouched, rfl | ⟨quantity, rfl⟩⟩ := untouched_of_rewardmine executed
    · exact nonneg.trans (surplus_of_untouched untouched le_rfl)
    · exact nonneg.trans (surplus_of_untouched untouched le_rfl)
  | addmortgage =>
    obtain ⟨untouched, rfl⟩ := untouched_of_addmortgage executed
    apply nonneg.trans (surplus_of_untouched untouched _)
    rw [pending_cons, pending_nil, add_zero]
    exact worth_nonneg covered
  | claimmortgage =>
    obtain ⟨untouched, rfl⟩ := untouched_of_claimmortgage executed
    apply nonneg.trans (surplus_of_untouched untouched _)
    rw [pending_cons, pending_nil, add_zero]
    exact worth_nonneg env.reward_ne_system
  | claimbp =>
    obtain ⟨untouched, rfl | ⟨amount, rfl⟩⟩ := untouched_of_claimbp executed
    · exact nonneg.trans (surplus_of_untouched untouched le_rfl)
    · exact nonneg.trans (surplus_of_untouched untouched le_rfl)
  | claimvote =>
    obtain ⟨moves, amount, rfl⟩ := moves_of_claimvote executed
    exact nonneg.trans (surplus_of_moves moves le_rfl)
  | punishbp => exact nonneg.trans (surplus_of_punishbp executed)
  | canclepunish => exact nonneg.trans (surplus_of_canclepunish executed)
  | apppunish => exact surplus_of_apppunish nonneg covered executed
  | unapppunish =>
    obtain ⟨silently, rfl⟩ := ok_of_silent executed
    exact nonneg.trans (surplus_of_untouched (untouched_of_unapppunish silently) le_rfl)
  | bailpunish =>
    obtain ⟨untouched, rfl⟩ := untouched_of_bailpunish executed
    apply nonneg.trans (surplus_of_untouched untouched _)
    rw [pending_cons, pending_nil, add_zero, worth_in (by decide)]
    decide
  | inline => exact nonneg.trans (surplus_of_inline executed)
  | nextBlock =>
    cases executed
    exact nonneg

def StakeSolvent (env : Environment) (tables : Tables) : Prop :=
  tables.owed ≤ tables.balances env.systemAccount
deriving Decidable

/-- In every run whose punishments are covered, the system account holds its stakes and deposits
after every transaction. -/
theorem stakeSolvent_of_run {balances : AccountName → Int} {blockNum : Nat} {supply : Int}
    {visited : List Tables} {last : Tables} (funded : 0 ≤ balances env.systemAccount)
    (run : Run (Taken (step env) (PunishmentCovered env)) { balances, blockNum, supply } visited last)
    (done : last.inline = []) : StakeSolvent env last := by
  have initial : 0 ≤ Tables.surplus env { balances, blockNum, supply } := by
    show 0 ≤ balances env.systemAccount + 0 - 0
    omega
  have kept : 0 ≤ last.surplus env :=
    @Taken.invariant _ _ _ _ _ _ _ _ (fun tables => 0 ≤ Tables.surplus env tables) initial
      (fun _ _ _ nonneg covered stepped => surplus_of_step nonneg covered stepped) run
  unfold Tables.surplus at kept
  rw [done, pending_nil] at kept
  unfold StakeSolvent
  omega

/-- A voter, an initiator and the system account with some tokens. -/
def funded (system : Int) : AccountName → Int
  | 1 => system
  | 5 => 200000000
  | 6 => 200000000
  | _ => 0

/-- A stake, four blocks of one producer that end a cycle, and a motion against another producer that
15 of the 21 approve. -/
def punishment : List Call :=
  register ++ [.freeze [5] 5 ⟨100000000, Environment.bounded.coreSymbol⟩, .inline,
    .onblock 10 0 producers, .nextBlock, .onblock 10 0 producers, .nextBlock,
    .onblock 10 0 producers, .nextBlock, .onblock 10 0 producers, .inline, .inline,
    .punishbp [6] 6 11, .inline] ++
  (producers.take 15).map (fun bpname => .apppunish [bpname] bpname 11) ++
  List.replicate 16 .inline

/-- With tokens of its own the system account can pay the punishment. -/
theorem stakeSolvent_of_run_punishment :
    ∃ visited last, Run (Taken (step .bounded) (PunishmentCovered .bounded))
        { balances := funded 60000, blockNum := 400, supply := 0 } visited last ∧
      (last.inline = [] ∧ last.owed = 100000000) ∧ StakeSolvent .bounded last := by
  obtain ⟨visited, last, run, done, owed⟩ := @exists_run_of_replay _ _ _ (step .bounded)
    (PunishmentCovered .bounded) { balances := funded 60000, blockNum := 400, supply := 0 } _
    punishment (fun last => last.inline = [] ∧ last.owed = 100000000) _ (by decide +kernel)
  exact ⟨visited, last, run, ⟨done, owed⟩, stakeSolvent_of_run (by decide) run done⟩

/-- Without any it pays with the stake of the voter. -/
theorem stakes_pay_punishment : ∃ visited last, Run (Taken (step .bounded) fun _ _ => True)
        { balances := funded 0, blockNum := 400, supply := 0 } visited last ∧
      last.inline = [] ∧ ¬ StakeSolvent .bounded last :=
  exists_run_of_replay punishment (by decide +kernel)

end CodexRelay.Contracts.ForceSystem
