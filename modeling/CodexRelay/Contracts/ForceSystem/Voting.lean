import CodexRelay.Contracts.ForceSystem.Tables

/-!
Contract: `voting.cpp` and `vote4ram.cpp`, with the settlement of a voter.

Owns:
- freezing and unfreezing tokens, and moving frozen tokens to votes and back;
- `settlevoter`, which takes a share of every vote reward record that was made since the voter
  settled last;
- `fee`, which pays with voteage, and `claimvote`.
-/

namespace CodexRelay.Contracts.ForceSystem

open Chain Library

variable (env : Environment)

/-! ### Settlement -/

def VoteInfo.stake (row : VoteInfo) : Int := row.vote.tdiv coreSymbolPrecision

def VoteInfo.voteageAt (row : VoteInfo) (now : Nat) : Int :=
  toInt64 (row.voteage + row.stake * toUInt32 (now - row.voteageUpdateHeight))

def VoteInfo.first (stake : Int) (now : Nat) : VoteInfo where
  vote := stake
  voteage := 0
  voteageUpdateHeight := now
  totalReward := 0

structure VoteWalk where
  lastVoteage : Int
  lastVoteageUpdateHeight : Nat
  totalReward : Int
  crossDay : Bool

def VoteWalk.dayVoteage (walk : VoteWalk) (stake : Int) (record : VoteRewardInfo) : Int :=
  toInt64 (walk.lastVoteage +
    stake * toUInt32 (record.rewardBlockNum - walk.lastVoteageUpdateHeight))

def settleVoteRecord (stake : Int) (walk : VoteWalk) (record : VoteRewardInfo) :
    Checked (VoteRewardInfo × VoteWalk) :=
  if walk.lastVoteageUpdateHeight < record.rewardBlockNum then do
    let dayVoteage := walk.dayVoteage stake record
    let product ← times env record.totalReward dayVoteage
    let reward ← divide product record.totalVoteage
    let totalReward ← plus env walk.totalReward reward
    let left ← minus env record.totalReward reward
    return ({ record with
        totalVoteage := toInt64 (record.totalVoteage - dayVoteage)
        totalReward := left },
      { lastVoteage := 0
        lastVoteageUpdateHeight := record.rewardBlockNum
        totalReward
        crossDay := true })
  else return (record, walk)

def settleVoteRecords (stake : Int) :
    VoteWalk → List VoteRewardInfo → Checked (List VoteRewardInfo × VoteWalk)
  | walk, [] => return ([], walk)
  | walk, record :: records => do
      let (record, walk) ← settleVoteRecord env stake walk record
      let (records, walk) ← settleVoteRecords stake walk records
      return (record :: records, walk)

def settlevoter (voter bpname : AccountName) (tables : Tables) : Checked Tables := do
  let _ ← requireRow (tables.bps.lookup bpname) "bpname is not registered"
  let row ← requireRow (tables.votes.lookup (voter, bpname)) "settlevoter wrong"
  let (records, walk) ← settleVoteRecords env row.stake
    { lastVoteage := row.voteage
      lastVoteageUpdateHeight := row.voteageUpdateHeight
      totalReward := 0
      crossDay := false } (tables.votereward bpname)
  let totalReward ← plus env row.totalReward walk.totalReward
  let voteageAdd := row.stake * toUInt32 (tables.blockNum - walk.lastVoteageUpdateHeight)
  return (tables.setRecords bpname records).setVote voter bpname { row with
    totalReward
    voteage := toInt64 (if walk.crossDay then voteageAdd else row.voteage + voteageAdd)
    voteageUpdateHeight := tables.blockNum }

/-! ### Frozen tokens -/

/-- The row of a voter that freezes a stake, and the change of the stake. -/
def frozen (row : Option FreezeInfo) (stake : Int) (now : Nat) : Checked (FreezeInfo × Int) :=
  row.elim (return ({ staked := stake, unstaking := 0, unstakeHeight := now }, stake)) fun row => do
    let change ← minus env stake row.staked
    if change < 0 then
      let unstaking ← plus env row.unstaking (-change)
      return ({ staked := stake, unstaking, unstakeHeight := now }, change)
    else return ({ row with staked := stake }, change)

def freeze (actors : List AccountName) (voter : AccountName) (stake : Asset) (tables : Tables) :
    Checked (Tables × List Sent) := do
  requireAuth actors voter
  let stake ← stakeAmount env stake
  let (row, change) ← frozen env (tables.freezed.lookup voter) stake tables.blockNum
  return (tables.setFreeze voter row,
    if 0 < change then [.transfer voter env.systemAccount change "freeze"] else [])

def unfreeze (actors : List AccountName) (voter : AccountName) (tables : Tables) :
    Checked (Tables × List Sent) := do
  requireAuth actors voter
  let row ← requireRow (tables.freezed.lookup voter) "voter have not freeze token yet"
  eosioAssert (toUInt32 (row.unstakeHeight + env.constants.frozenDelay) < tables.blockNum)
    "unfreeze is not available yet"
  eosioAssert (0 < row.unstaking) "need unstaking quantity > 0"
  return (tables.setFreeze voter { row with unstaking := 0, unstakeHeight := tables.blockNum },
    [.transfer env.systemAccount voter row.unstaking "unfreeze"])

/-- What a lower vote gives back to the frozen tokens of the voter. -/
def release (voter : AccountName) (change : Int) (tables : Tables) : Checked Tables :=
  if change < 0 then
    (tables.freezed.lookup voter).elim
      (return tables.setFreeze voter
        { staked := -change, unstaking := 0, unstakeHeight := tables.blockNum })
      fun row => do
        let staked ← plus env row.staked (-change)
        return tables.setFreeze voter { row with staked, unstakeHeight := tables.blockNum }
  else return tables

/-- What a higher vote takes from the frozen tokens of the voter. -/
def spend (voter : AccountName) (change : Int) (tables : Tables) : Checked Tables :=
  if 0 < change then do
    let row ← requireRow (tables.freezed.lookup voter) "voter freeze token < vote token"
    eosioAssert (change ≤ row.staked) "voter freeze token < vote token"
    let staked ← minus env row.staked change
    return tables.setFreeze voter { row with staked }
  else return tables

/-! ### Votes -/

def BpInfo.voteageAt (bp : BpInfo) (now : Nat) : Int :=
  toInt64 (bp.totalVoteage + bp.totalStaked * toUInt32 (now - bp.voteageUpdateHeight))

def BpInfo.voted (bp : BpInfo) (change : Int) (now : Nat) : BpInfo :=
  { bp with
    totalVoteage := bp.voteageAt now
    voteageUpdateHeight := now
    totalStaked := toInt64 (bp.totalStaked + change.tdiv coreSymbolPrecision) }

/-- The end of `vote` and `vote4ram`: the frozen tokens pay for the change, and the producer gets
it. -/
def applyVote (voter bpname : AccountName) (change : Int) (tables : Tables) : Checked Tables := do
  let bp ← requireRow (tables.bps.lookup bpname) "bpname is not registered"
  eosioAssert (bp.isactive ∨ change < 0) "bp is not active"
  let tables ← spend env voter change tables
  return tables.setBp bpname (bp.voted change tables.blockNum)

/-- The row of a vote that changes, after the voter has settled, and the change. -/
def revote (voter bpname : AccountName) (stake : Int) (tables : Tables) :
    Checked (Tables × Int) := do
  let tables ← settlevoter env voter bpname tables
  let row ← requireRow (tables.votes.lookup (voter, bpname)) "cannot pass end iterator to modify"
  let change ← minus env stake row.vote
  let tables ← release env voter change tables
  return (tables.setVote voter bpname { row with vote := stake }, change)

variable (actors : List AccountName)

def vote (voter bpname : AccountName) (stake : Asset) (tables : Tables) : Checked Tables := do
  requireAuth actors voter
  eosioAssert (¬ env.isGenesisBp bpname) "creation bp can not to be voted"
  let stake ← stakeAmount env stake
  let (tables, change) ← (tables.votes.lookup (voter, bpname)).elim
    (return (tables.setVote voter bpname (.first stake tables.blockNum), stake))
    fun _ => revote env voter bpname stake tables
  applyVote env voter bpname change tables

def revote4ram (voter bpname : AccountName) (row : VoteInfo) (stake : Int) (tables : Tables) :
    Checked (Tables × Int) := do
  let change ← minus env stake row.vote
  let tables ← release env voter change tables
  return (tables.setVote4ram voter bpname
    { row with
      voteage := row.voteageAt tables.blockNum
      voteageUpdateHeight := tables.blockNum
      vote := stake }, change)

def sumVote4ram (voter : AccountName) (stake change : Int) (tables : Tables) : Checked Tables := do
  let sum ← (tables.vote4ramsum.lookup voter).elim (return stake) fun staked => plus env staked change
  return { tables with vote4ramsum := tables.vote4ramsum.insert voter sum }

def vote4ram (voter bpname : AccountName) (stake : Asset) (tables : Tables) : Checked Tables := do
  requireAuth actors voter
  let _ ← requireRow (tables.bps.lookup bpname) "bpname is not registered"
  let stake ← stakeAmount env stake
  let (tables, change) ← (tables.votes4ram.lookup (voter, bpname)).elim
    (return (tables.setVote4ram voter bpname (.first stake tables.blockNum), stake))
    fun row => revote4ram env voter bpname row stake tables
  let tables ← applyVote env voter bpname change tables
  sumVote4ram env voter stake change tables

def vote4ram2 (voter bpname : AccountName) (stake : Asset)
    (tables : Tables) : Checked (Tables × List Sent) := do
  let (tables, sent) ← freeze env actors voter stake tables
  let tables ← vote4ram env actors voter bpname stake tables
  return (tables, sent)

def fee (payer bpname : AccountName) (voteage : Int) (tables : Tables) : Checked Tables := do
  requireAuth actors payer
  let bp ← requireRow (tables.bps.lookup bpname) "bpname is not registered"
  let row ← requireRow (tables.votes.lookup (payer, bpname))
    "voter have not add votes to the the producer yet"
  let newestVoteage := row.voteageAt tables.blockNum
  eosioAssert (0 < voteage ∧ voteage ≤ newestVoteage)
    "voteage must be greater than zero and have sufficient voteage!"
  return (tables.setVote payer bpname { row with
      voteage := newestVoteage - voteage
      voteageUpdateHeight := tables.blockNum }).setBp bpname { bp with
    totalVoteage := toInt64 (bp.voteageAt tables.blockNum - voteage)
    voteageUpdateHeight := tables.blockNum }

/-- What a voter claims. A producer that claims for itself also gets its commission. -/
def claimedReward (bpname receiver : AccountName) (bp : BpInfo) (row : VoteInfo) (tables : Tables) :
    Checked (Tables × Int) :=
  if receiver = bpname then do
    let rewardAll ← plus env row.totalReward bp.rewardsBlock
    return (tables.setBp bpname { bp with rewardsBlock := 0 }, rewardAll)
  else return (tables, row.totalReward)

def claimvote (bpname receiver : AccountName) (tables : Tables) : Checked (Tables × List Sent) := do
  requireAuth actors receiver
  let tables ← settlevoter env receiver bpname tables
  let bp ← requireRow (tables.bps.lookup bpname) "bpname is not registered"
  let row ← requireRow (tables.votes.lookup (receiver, bpname))
    "voter have not add votes to the the producer yet"
  let (tables, rewardAll) ← claimedReward env bpname receiver bp row tables
  eosioAssert (100000 < rewardAll) "claim amount must > 10"
  return (tables.setVote receiver bpname { row with totalReward := 0 },
    [.castcoin env.rewardAccount receiver rewardAll])

end CodexRelay.Contracts.ForceSystem
