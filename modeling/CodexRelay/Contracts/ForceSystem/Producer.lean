import CodexRelay.Contracts.ForceSystem.Tables

/-!
Contract: `producer.cpp`.

Owns:
- `onblock`: the rewards of a cycle, the daily update, the drained blocks, the vote reward records
  and the election;
- `rewardmine`, which divides the mining reward between the coins and the votes;
- mortgages and claims of producers;
- punishing a producer.

`onblock` reads the reward row through one table object and changes it through others. What it reads
after that is the row as the first object has cached it.
-/

namespace CodexRelay.Contracts.ForceSystem

open Chain Library

variable (env : Environment)

/-! ### The reward of a cycle -/

def Constants.initRewardInfo (constants : Constants) : RewardInfo where
  cycleReward := constants.preBlockRewards
  gradient := constants.preGradient

variable (actors : List AccountName) (tables : Tables)

def Tables.rewardInfo (constants : Constants) : RewardInfo :=
  tables.reward.getD constants.initRewardInfo

namespace RewardInfo

variable (constants : Constants) (now : Nat) (reward : RewardInfo)

def blockRewards : Int :=
  (toInt64 (reward.cycleReward * toUInt32 (now - reward.lastRewardBlockNum))).tdiv
    constants.updateCycle

def rewardTimes : Nat := toUInt32 (reward.totalRewardTime + 1)

def isStable : Bool := reward.rewardTimes = constants.cyclePreday * constants.stableDay

def rewardUpdate : Bool :=
  reward.isStable constants || reward.rewardTimes % constants.cyclePreday = 0

def stepped : Int := (toInt64 (reward.cycleReward * reward.gradient)).tdiv rewardRatioPrecision

/-- The row that `update_reward_stable` or the gradient step leaves. -/
def updated : RewardInfo :=
  if reward.isStable constants then
    { reward with cycleReward := constants.stableBlockRewards, gradient := constants.stableGradient }
  else if reward.rewardUpdate constants then { reward with cycleReward := reward.stepped }
  else reward

def recorded : RewardInfo :=
  { reward with
    totalRewardTime := reward.rewardTimes
    lastRewardBlockNum := now
    rewardBlockNum :=
      if rewardRecordSize < (reward.rewardBlockNum ++ [now]).length then
        (reward.rewardBlockNum ++ [now]).drop (rewardRecordSize / 2)
      else reward.rewardBlockNum ++ [now] }

/-- `cycle_reward` as the first table object has it: `update_reward_stable` uses another one. -/
def cachedCycleReward : Int :=
  if reward.isStable constants then reward.cycleReward else reward.stepped

/-- What the mining reward of a day is a part of. The record of this block is not in the cached
row. -/
def dayRewards : Int :=
  (toInt64 (reward.cachedCycleReward constants * toUInt32 (now - reward.rewardBlockNum.getD
    (reward.rewardBlockNum.length - constants.cyclePreday) 0))).tdiv constants.updateCycle

def minedRewards : Int :=
  (toInt64 (reward.dayRewards constants now * rewardMine)).tdiv rewardRatioPrecision

end RewardInfo

def blockShare (blockRewards : Int) : Int :=
  (toInt64 (blockRewards * rewardBp)).tdiv rewardRatioPrecision

/-! ### Rewards for blocks -/

def drainBlockNum (bp : BpInfo) (producer : Producer) (forceChange : Bool) : Nat :=
  if forceChange then 0
  else toUInt32 (env.constants.cyclePrebpBlock + bp.lastBlockAmount - producer.amount)

/-- The blocks that count for the age of a producer, with its weight. -/
def blockOutAge (bp : BpInfo) (producer : Producer) : Int :=
  (if bp.lastBlockAmount ≤ producer.amount then producer.amount - bp.lastBlockAmount
  else producer.amount : Nat) * bp.blockWeight

def effectiveMortgage (bpname : AccountName) (bp : BpInfo) : Int :=
  if bp.mortgage ≤ 0 then (env.getGenesisBpData bpname).elim bp.mortgage fun _ => genesisMortgage
  else bp.mortgage

def drained (rewardPreBlock : Int) (drain : Nat) (bp : BpInfo) : Checked BpInfo :=
  if 0 < drain then do
    let fine ← asset env (toInt64 (rewardPreBlock * 2 * drain))
    let left ← minus env bp.mortgage fine
    let remainPunish ← plus env bp.remainPunish fine
    return { bp with
      blockWeight := blockOutWeight
      mortgage := left
      remainPunish
      totalDrainBlock := toUInt32 (bp.totalDrainBlock + drain) }
  else return { bp with blockWeight := toInt64 (bp.blockWeight + 1) }

/-- The drained blocks of a producer, until it has a cycle without any. -/
def lastDrain (bpname : AccountName) (drain : Nat) :
    AList fun _ : AccountName => Nat :=
  if 0 < drain then
    tables.lastdrainbp.insert bpname ((tables.lastdrainbp.lookup bpname).elim drain fun earlier =>
      toUInt32 (earlier + drain))
  else tables.lastdrainbp.erase bpname

/-- The body of the loop of `reward_block`, with the age of all blocks so far. -/
def rewardProducer (rewardPreBlock : Int) (forceChange : Bool) (producer : Producer) (age : Int)
    (tables : Tables) : Checked (Tables × Int) := do
  let bp ← requireRow (tables.bps.lookup producer.bpname) "cannot find bpinfo"
  let needed ← asset env (toInt64 (mortgage * rewardPreBlock))
  let out := if needed < effectiveMortgage env producer.bpname bp then blockOutAge bp producer else 0
  let drain := drainBlockNum env bp producer forceChange
  let punished ← drained env rewardPreBlock drain bp
  return ({ tables.setBp producer.bpname { punished with
      blockAge := toInt64 (bp.blockAge + out)
      lastBlockAmount := producer.amount } with
    lastdrainbp := lastDrain tables producer.bpname drain }, toInt64 (age + out))

/-- The loop of `reward_block`. -/
def rewardProducers (rewardPreBlock : Int) (forceChange : Bool) :
    List Producer → Int → Tables → Checked (Tables × Int)
  | [], age, tables => return (tables, age)
  | producer :: producers, age, tables => do
      let (tables, age) ← rewardProducer env rewardPreBlock forceChange producer age tables
      rewardProducers rewardPreBlock forceChange producers age tables

def rewardBlock (scheduleVersion : Nat) (rewardAmount : Int) (forceChange : Bool) (tables : Tables) :
    Checked Tables := do
  let producers ← requireRow (tables.schedules.lookup scheduleVersion) "cannot find schedule"
  let reward := tables.rewardInfo env.constants
  let rewardPreBlock := reward.cycleReward.tdiv env.constants.updateCycle
  let (tables, age) ← rewardProducers env rewardPreBlock forceChange producers 0 tables
  let amount ← asset env rewardAmount
  let rewardBlockOut ← plus env reward.rewardBlockOut amount
  return { tables with reward := some { reward with
    rewardBlockOut
    totalBlockOutAge := toInt64 (reward.totalBlockOutAge + age) } }

/-! ### Vote reward records -/

def BpInfo.closing (bp : BpInfo) (now : Nat) : VoteRewardInfo where
  totalVoteage := toInt64 (bp.totalVoteage + bp.totalStaked * toUInt32 (now - bp.voteageUpdateHeight))
  totalReward := 0
  rewardBlockNum := now

/-- The records of a producer after a new one. With `BP_REWARD_RECORD_SIZE` records before, the
first is erased and the second loses its reward. -/
def closeDay (bp : BpInfo) (now : Nat) (records : List VoteRewardInfo) :
    Checked (List VoteRewardInfo) :=
  if ∃ record ∈ records, record.rewardBlockNum = now then return records
  else if bp.rewardSize = bpRewardRecordSize then
    match records ++ [bp.closing now] with
    | _ :: second :: rest => return { second with totalReward := 0 } :: rest
    | _ => .error ⟨.eosioAssertMessageException, "cannot increment end iterator"⟩
  else return records ++ [bp.closing now]

/-- The loop of `settlebpvote`. -/
def settleBps : List AccountName → Tables → Checked Tables
  | [], tables => return tables
  | bpname :: names, tables => do
      let bp ← requireRow (tables.bps.lookup bpname) "cannot increment end iterator"
      let records ← closeDay bp tables.blockNum (tables.votereward bpname)
      settleBps names ((tables.setRecords bpname records).setBp bpname { bp with
        voteageUpdateHeight := tables.blockNum
        totalVoteage := 0
        rewardSize := if bp.rewardSize = bpRewardRecordSize then bp.rewardSize
          else bp.rewardSize + 1 })

def settlebpvote : Checked Tables := settleBps tables.bpNames tables

/-! ### Election -/

/-- `vote_schedule` and `sorts`. -/
structure Election where
  voteSchedule : List (AccountName × Nat)
  sorts : List Int

/-- The state of a producer that lacks mortgage, and of one whose time has passed. -/
def refreshed (now : Nat) (needed held : Int) (super : Bool) (bp : BpInfo) : BpInfo :=
  let waited := if bp.activeType = .lackMortgage ∧
      bp.activeChangeBlockNum < toUInt32 (now - env.constants.lackmortgageFreeze) then
    { bp with activeType := .normal } else bp
  if held < needed ∧ super ∧ waited.activeType = .normal then
    { waited with activeType := .lackMortgage, activeChangeBlockNum := now }
  else waited

/-- The rounds of the inner loop of `update_elected_bps`, from a place of the schedule on. -/
def electFrom (now : Nat) (needed staked held : Int) (super : Bool) (bpname : AccountName) :
    Nat → Nat → BpInfo → Election → BpInfo × Election
  | 0, _, bp, election => (bp, election)
  | rounds + 1, place, bp, election =>
    let bp := refreshed env now needed held super bp
    if election.sorts.getD place 0 ≤ staked ∧ bp.isactive ∧ bp.activeType ≠ .punish ∧
        needed < held then
      (bp, { voteSchedule := election.voteSchedule.insertIdx place (bpname, bp.blockSigningKey)
             sorts := election.sorts.insertIdx place staked })
    else electFrom now needed staked held super bpname rounds (place + 1) bp election

/-- The stake and the mortgage by which a producer is judged. An active genesis producer without
mortgage has those of its table. -/
def BpInfo.judged (bpname : AccountName) (bp : BpInfo) : Int × Int :=
  (if bp.isactive ∧ bp.mortgage ≤ 0 then env.getGenesisBpData bpname else none).elim
    (bp.totalStaked, bp.mortgage) fun staked => (staked, genesisMortgage)

def electBp (now : Nat) (needed : Int) (super : Bool) (bpname : AccountName) (bp : BpInfo) :
    Election → BpInfo × Election :=
  electFrom env now needed (bp.judged env bpname).1 (bp.judged env bpname).2 super bpname
    env.constants.numOfTopBps 0 bp

/-- The loop of `update_elected_bps`. The newest schedule is only read for a producer that lacks
mortgage. -/
def electBps (needed : Int) :
    List AccountName → Election → Tables → Checked (Tables × Election)
  | [], election, tables => return (tables, election)
  | bpname :: names, election, tables => do
      let bp ← requireRow (tables.bps.lookup bpname) "cannot increment end iterator"
      let amount ← asset env needed
      let super ← (if (bp.judged env bpname).2 < amount then tables.newestSchedule else .ok [])
      let round := electBp env tables.blockNum amount (bpname ∈ super) bpname bp election
      electBps needed names round.2 (tables.setBp bpname round.1)

/-- `update_elected_bps`. The schedule is proposed to the host. -/
def updateElectedBps : Checked Tables := do
  let reward := tables.rewardInfo env.constants
  let blockMortgege := toInt64 (reward.cycleReward.tdiv env.constants.updateCycle * mortgage)
  let (tables, election) ← electBps env blockMortgege tables.bpNames
    { voteSchedule := [], sorts := List.replicate env.constants.numOfTopBps 0 } tables
  return { tables with
    reward := some reward
    proposed := some ((election.voteSchedule.take env.constants.numOfTopBps).insertionSort
      fun left right => left.1 ≤ right.1) }

/-! ### Blocks -/

def Tables.withCycle (constants : Constants) (tables : Tables) : Tables :=
  let reward := tables.rewardInfo constants
  let blockRewards := reward.blockRewards constants tables.blockNum
  let update := reward.rewardUpdate constants
  { tables with
    reward := some ((reward.updated constants).recorded tables.blockNum)
    issued := tables.issued + blockRewards
    passed := tables.passed + blockShare blockRewards +
      if update then reward.minedRewards constants tables.blockNum else 0 }

def endDay (update : Bool) (mined : Int) (tables : Tables) : Checked (Tables × List Sent) :=
  if update then do
    let tables ← settlebpvote tables
    return (tables, [.settlemine, .rewardmine mined, .activemine])
  else return (tables, [])

def electUnlessChanged (forceChange : Bool) (tables : Tables) : Checked Tables :=
  if forceChange then return tables else updateElectedBps env tables

def rewardCycle (scheduleVersion : Nat) (forceChange : Bool) (tables : Tables) :
    Checked (Tables × List Sent) := do
  let reward := tables.rewardInfo env.constants
  let blockRewards := reward.blockRewards env.constants tables.blockNum
  let quantity ← asset env blockRewards
  let rewarded ← rewardBlock env
    (if forceChange then toUInt32 (scheduleVersion - 1) else scheduleVersion)
    (blockShare blockRewards) forceChange (tables.withCycle env.constants)
  let (settled, sent) ← endDay (reward.rewardUpdate env.constants)
    (reward.minedRewards env.constants tables.blockNum) rewarded
  let elected ← electUnlessChanged env forceChange settled
  return (elected, .issue env.rewardAccount quantity "issue tokens for producer pay" :: sent)

def resetBlockWeight : List AccountName → Tables → Checked Tables
  | [], tables => return tables
  | bpname :: names, tables => do
      let bp ← requireRow (tables.bps.lookup bpname) "bpname is not registered"
      resetBlockWeight names (tables.setBp bpname { bp with
        blockWeight := blockOutWeight
        lastBlockAmount := 0 })

/-- The block of a producer in the schedule; the first entry counts. -/
def countBlock (bpname : AccountName) : List Producer → List Producer
  | [] => []
  | producer :: producers =>
    if producer.bpname = bpname then
      { producer with amount := toUInt32 (producer.amount + 1) } :: producers
    else producer :: countBlock bpname producers

/-- The blocks of a producer since the last reward, where the version of the schedule is known. -/
def preBpBlockOut (bpname : AccountName) (schedule : Option (List Producer)) (tables : Tables) :
    Checked Nat :=
  schedule.elim (return 0) fun producers => do
    let bp ← requireRow (tables.bps.lookup bpname) "bpname is not registered"
    return toUInt32 (((producers.find? fun producer => producer.bpname = bpname).elim 0
      Producer.amount : Nat) - bp.lastBlockAmount)

/-- The row of the schedule after the block. A new schedule starts with the active producers. -/
def recordBlock (bpname : AccountName) (scheduleVersion : Nat) (blockProducers : List AccountName)
    (schedule : Option (List Producer)) (tables : Tables) : Checked Tables :=
  schedule.elim
    (resetBlockWeight blockProducers { tables with
      schedules := tables.schedules.insert scheduleVersion (blockProducers.map fun producer =>
        { bpname := producer, amount := if producer = bpname then 1 else 0 }) })
    fun producers => return { tables with
      schedules := tables.schedules.insert scheduleVersion (countBlock bpname producers) }

def endsCycle (bpname : AccountName) (scheduleVersion : Nat) (tables : Tables) : Checked Bool := do
  let schedule := tables.schedules.lookup scheduleVersion
  let blocks ← preBpBlockOut bpname schedule tables
  return env.constants.cyclePrebpBlock ≤ blocks ∨ schedule.isNone ∧ scheduleVersion ≠ 0

def rewardIfEnds (ends : Bool) (scheduleVersion : Nat) (forceChange : Bool) (tables : Tables) :
    Checked (Tables × List Sent) :=
  if ends then rewardCycle env scheduleVersion forceChange tables else return (tables, [])

/-- `onblock`, with what `get_active_producers` has written. -/
def onblock (bpname : AccountName) (scheduleVersion : Nat) (activeProducers : List AccountName)
    (tables : Tables) : Checked (Tables × List Sent) := do
  let schedule := tables.schedules.lookup scheduleVersion
  let ends ← endsCycle env bpname scheduleVersion tables
  let (rewarded, sent) ← rewardIfEnds env ends scheduleVersion schedule.isNone tables
  let result ← recordBlock bpname scheduleVersion
    ((List.range env.constants.numOfTopBps).map fun place => activeProducers.getD place 0)
    schedule rewarded
  return (result, sent)

/-! ### The mining reward -/

def recordNow (bpname : AccountName) : Checked VoteRewardInfo :=
  requireRow ((tables.votereward bpname).find? fun record => record.rewardBlockNum = tables.blockNum)
    "reward info can not find"

def sumVoteage (width : Int → Int) (tables : Tables) : List AccountName → Int → Checked Int
  | [], sum => return sum
  | bpname :: names, sum => do
      let record ← recordNow tables bpname
      sumVoteage width tables names (width (sum + record.totalVoteage))

/-- The body of the loop of `reward_bps`, with the rewards that go to the budget. -/
def rewardBpVotes (rewardAmount all : Int) (bpname : AccountName) (budget : Int) (tables : Tables) :
    Checked (Tables × Int) := do
  let bp ← requireRow (tables.bps.lookup bpname) "cannot increment end iterator"
  let record ← recordNow tables bpname
  if record.totalVoteage ≤ all.tdiv 200 ∨ bp.commissionRate < 1 ∨
      rewardRatioPrecision < bp.commissionRate then return (tables, budget)
  else
    let share ← requireRow (env.voteShare rewardAmount record.totalVoteage all) "integer overflow"
    let voteReward ← asset env share
    let product ← times env voteReward bp.commissionRate
    let rewardBlockAsset ← divide product rewardRatioPrecision
    if bp.activeType = .punish ∨ bp.activeType = .removed then
      let budget ← plus env budget voteReward
      return (tables, budget)
    else
      let rewardsBlock ← plus env bp.rewardsBlock rewardBlockAsset
      let rest ← minus env voteReward rewardBlockAsset
      let totalReward ← plus env record.totalReward rest
      return ((tables.setBp bpname { bp with rewardsBlock }).setRecords bpname
        ((tables.votereward bpname).map fun other =>
          if other.rewardBlockNum = tables.blockNum then { other with totalReward } else other),
        budget)

/-- The loop of `reward_bps`. -/
def rewardBpsVotes (rewardAmount all : Int) :
    List AccountName → Int → Tables → Checked (Tables × Int)
  | [], budget, tables => return (tables, budget)
  | bpname :: names, budget, tables => do
      let (tables, budget) ← rewardBpVotes env rewardAmount all bpname budget tables
      rewardBpsVotes rewardAmount all names budget tables

def rewardBps (rewardAmount : Int) (tables : Tables) : Checked Tables := do
  let all ← sumVoteage toInt64 tables tables.bpNames 0
  if all ≤ 0 then return tables
  else
    let (tables, budget) ← rewardBpsVotes env rewardAmount all tables.bpNames 0 tables
    let reward := tables.rewardInfo env.constants
    let rewardBudget ← plus env reward.rewardBudget budget
    return { tables with reward := some { reward with rewardBudget } }

def rewardmine (rewardNum : Int) (tables : Tables) : Checked (Tables × List Sent) := do
  requireAuth actors env.systemAccount
  let voteage ← sumVoteage toInt128 tables tables.bpNames 0
  let votePower := toInt128 (voteage * coreSymbolPrecision)
  let coinPower ← requireRow (env.coinPower tables.blockNum) "token with symbol already exists"
  let totalPower := toInt128 (votePower + coinPower)
  if totalPower = 0 then return (tables, [])
  else
    let rewardBp := toInt64 ((toInt128 (rewardNum * votePower)).tdiv totalPower)
    let quantity ← asset env (toInt64 (rewardNum - rewardBp))
    let tables ← rewardBps env rewardBp tables
    return (tables, [.relayRewardmine quantity])

/-! ### Producers -/

def updatebp (bpname : AccountName) (blockSigningKey : Nat)
    (commissionRate : Nat) (url : String) (tables : Tables) : Checked Tables := do
  requireAuth actors bpname
  eosioAssert (url.utf8ByteSize < 64) "url too long"
  eosioAssert (1 ≤ commissionRate ∧ commissionRate ≤ rewardRatioPrecision)
    "need 1 <= commission rate <= 10000"
  return tables.setBp bpname ((tables.bps.lookup bpname).elim
    { blockSigningKey, commissionRate, voteageUpdateHeight := tables.blockNum }
    fun bp => { bp with blockSigningKey, commissionRate })

def removebp (bpname : AccountName) (tables : Tables) : Checked Tables := do
  requireAuth actors env.systemAccount
  let bp ← requireRow (tables.bps.lookup bpname) "bpname is not registered"
  return tables.setBp bpname { bp with activeType := .removed }

def addmortgage (bpname payer : AccountName) (quantity : Asset)
    (tables : Tables) : Checked (Tables × List Sent) := do
  requireAuth actors payer
  eosioAssert (¬ env.isGenesisBp bpname) "creation bp cannot add mortgage"
  let bp ← requireRow (tables.bps.lookup bpname) "can not find the bp"
  eosioAssert (quantity.symbol = env.coreSymbol) "attempt to add asset with different symbol"
  let mortgage ← plus env bp.mortgage quantity.amount
  return (tables.setBp bpname { bp with mortgage },
    [.transfer payer env.rewardAccount quantity.amount "add mortgage"])

def claimmortgage (bpname receiver : AccountName) (quantity : Asset)
    (tables : Tables) : Checked (Tables × List Sent) := do
  requireAuth actors bpname
  let bp ← requireRow (tables.bps.lookup bpname) "can not find the bp"
  eosioAssert (quantity.symbol = env.coreSymbol)
    "comparison of assets with different symbols is not allowed"
  eosioAssert (quantity.amount < bp.mortgage) "the quantity is bigger then bp mortgage"
  let mortgage ← minus env bp.mortgage quantity.amount
  return (tables.setBp bpname { bp with mortgage },
    [.transfer env.rewardAccount receiver quantity.amount "claim bp mortgage"])

def claimbp (bpname receiver : AccountName) (tables : Tables) : Checked (Tables × List Sent) := do
  requireAuth actors bpname
  let bp ← requireRow (tables.bps.lookup bpname) "can not find the bp"
  let reward ← requireRow tables.reward "reward info do not find"
  let product ← times env reward.rewardBlockOut bp.blockAge
  let claimBlock ← divide product reward.totalBlockOutAge
  let rewardBlockOut ← minus env reward.rewardBlockOut claimBlock
  let reward := { reward with
    rewardBlockOut
    totalBlockOutAge := toInt64 (reward.totalBlockOutAge - bp.blockAge) }
  let tables := tables.setBp bpname { bp with blockAge := 0 }
  eosioAssert (100000 < claimBlock) "claim amount must > 10"
  if bp.mortgage = 0 then
    let rewardBudget ← plus env reward.rewardBudget claimBlock
    return ({ tables with reward := some { reward with rewardBudget } }, [])
  else return ({ tables with reward := some reward },
    [.castcoin env.rewardAccount receiver claimBlock])

/-! ### Punishment -/

def expiry : Nat :=
  toUInt32 (tables.blockNum - env.constants.updateCycle * env.constants.cyclePreday)

/-- `punishbp`. A motion that has expired is replaced, and its deposit is returned. -/
def punishbp (actors : List AccountName) (initiator bpname : AccountName) (tables : Tables) :
    Checked (Tables × List Sent) := do
  requireAuth actors initiator
  let drainNum ← requireRow (tables.lastdrainbp.lookup bpname) "the bp cannot be punished"
  eosioAssert (¬ env.isGenesisBp bpname) "creation bp cannot be punished"
  let motion := tables.punishbps.lookup bpname
  eosioAssert (∀ old ∈ motion, old.updateBlockNum < expiry env tables) "the punish motion has exist"
  return ({ tables with
      punishbps := tables.punishbps.insert bpname
        { initiator, drainNum, updateBlockNum := tables.blockNum }
      apppunishbps := if motion.isSome then tables.apppunishbps.erase bpname
        else tables.apppunishbps },
    .transfer initiator env.systemAccount punishBpFee "punishbp deposit" ::
      motion.elim [] fun old => [.transfer env.systemAccount old.initiator punishBpFee
        "cancle punishbp return deposit"])

def canclepunish (initiator bpname : AccountName) (tables : Tables) :
    Checked (Tables × List Sent) := do
  requireAuth actors initiator
  let motion ← requireRow (tables.punishbps.lookup bpname) "the bp is not be punish"
  eosioAssert (initiator = motion.initiator) "only the initiator can cancle the punish proposal"
  return ({ tables with
      punishbps := tables.punishbps.erase bpname
      apppunishbps := tables.apppunishbps.erase bpname },
    if motion.updateBlockNum < expiry env tables then
      [.transfer env.systemAccount initiator punishBpFee "cancle punishbp return deposit"]
    else [])

/-- The approvals of producers of the newest schedule, which `effective_approve_num` counts. -/
def effectiveApprovals (super approvals : List AccountName) : List AccountName :=
  approvals.filter fun approver => approver ∈ super

def execPunishBp (bpname : AccountName) (tables : Tables) : Checked (Tables × List Sent) := do
  let motion ← requireRow (tables.punishbps.lookup bpname) "the bp is not be punish"
  let approvals ← requireRow (tables.apppunishbps.lookup bpname)
    "no producer approve to punish the bp"
  let super ← tables.newestSchedule
  let effective := effectiveApprovals super approvals
  if effective.length < env.constants.numOfTopBps * 2 / 3 then return (tables, [])
  else (tables.bps.lookup bpname).elim (return (tables, [])) fun bp => do
    let rewardInitiator ← divide bp.remainPunish 2
    let returned ← plus env rewardInitiator punishBpFee
    let rewardApprove ← divide rewardInitiator effective.length
    return ({ tables.setBp bpname { bp with
          remainPunish := 0
          activeType := .punish
          activeChangeBlockNum := tables.blockNum } with
        punishbps := tables.punishbps.erase bpname
        apppunishbps := tables.apppunishbps.erase bpname
        lastdrainbp := tables.lastdrainbp.erase bpname },
      .transfer env.systemAccount motion.initiator returned "cancle punishbp deposit" ::
        effective.map fun approver =>
          .transfer env.systemAccount approver rewardApprove "cancle punishbp deposit")

def apppunish (bpname punishbpname : AccountName) (tables : Tables) :
    Checked (Tables × List Sent) := do
  requireAuth actors bpname
  let super ← tables.newestSchedule
  eosioAssert (bpname ∈ super) "only super bp can approve to punish bp"
  let motion ← requireRow (tables.punishbps.lookup punishbpname) "the bp is not be punish"
  eosioAssert (expiry env tables < motion.updateBlockNum) "the punish motion is already expired"
  let earlier := (tables.apppunishbps.lookup punishbpname).getD []
  eosioAssert (bpname ∉ earlier) "the bp has approved"
  let tables := { tables with
    apppunishbps := tables.apppunishbps.insert punishbpname (earlier ++ [bpname]) }
  if env.constants.numOfTopBps * 2 / 3 < earlier.length + 1 then execPunishBp env punishbpname tables
  else return (tables, [])

/-- `unapppunish`. It erases the approvals of all producers. -/
def unapppunish (bpname punishbpname : AccountName) (tables : Tables) : Checked Tables := do
  requireAuth actors bpname
  let _ ← requireRow (tables.apppunishbps.lookup punishbpname) "can find the approve punish record"
  return { tables with apppunishbps := tables.apppunishbps.erase punishbpname }

def bailpunish (punishbpname : AccountName) (tables : Tables) : Checked (Tables × List Sent) := do
  requireAuth actors punishbpname
  let bp ← requireRow (tables.bps.lookup punishbpname) "can not find bp"
  eosioAssert (bp.activeType = .punish ∧ toUInt32 (bp.activeChangeBlockNum +
      env.constants.updateCycle * env.constants.cyclePreday * 2) < tables.blockNum)
    "the bp can not to be bailed"
  return (tables.setBp punishbpname { bp with activeType := .normal },
    [.transfer punishbpname env.systemAccount bailPunishFee "bail punish fee"])

end CodexRelay.Contracts.ForceSystem
