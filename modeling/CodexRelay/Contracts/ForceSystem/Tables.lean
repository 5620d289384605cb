import CodexRelay.Contracts.Eosiolib
import CodexRelay.Library.FixedWidth
import CodexRelay.Library.KeyedSum

/-!
Contract: the tables of the contract `force.system`, and what it takes from elsewhere.

Owns:
- the constants of `codex_defines.hpp`;
- the rows of every table that an action reads, the actions that an action sends, and the state;
- the arithmetic of amounts. Every asset that a row holds is in the core symbol, so that rows keep
  amounts, and the symbol of an asset is checked where it enters.

Does not own: `url`, `emergency`, `last_producer_name`, `block_height` of a schedule and
`update_block_num` of a drained producer, which no action reads.
-/

namespace CodexRelay.Contracts.ForceSystem

open Chain Library

variable {amount result left right : Int}

/-! ### Constants -/

structure Constants where
  /-- `CYCLE_PREHOUR` -/
  cyclePrehour : Nat
  /-- `CYCLE_PREBP_BLOCK` -/
  cyclePrebpBlock : Nat
  /-- `CYCLE_PREDAY` -/
  cyclePreday : Nat
  /-- `STABLE_DAY` -/
  stableDay : Nat
  /-- `PRE_BLOCK_REWARDS` -/
  preBlockRewards : Int
  /-- `STABLE_BLOCK_REWARDS` -/
  stableBlockRewards : Int
  /-- `PRE_GRADIENT` -/
  preGradient : Nat
  /-- `STABLE_GRADIENT` -/
  stableGradient : Nat
  /-- `FROZEN_DELAY` -/
  frozenDelay : Nat
  /-- `NUM_OF_TOP_BPS` -/
  numOfTopBps : Nat

/-- The constants with `BEFORE_ONLINE_TEST`, which `contract_config.hpp.in` defines, and with the
number of producers of `CMakeLists.txt`. -/
def Constants.beforeOnlineTest : Constants where
  cyclePrehour := 10
  cyclePrebpBlock := 3
  cyclePreday := 5
  stableDay := 10
  preBlockRewards := 586000
  stableBlockRewards := 1260000
  preGradient := 10250
  stableGradient := 10010
  frozenDelay := 3 * 24 * 20 * 60
  numOfTopBps := 21

def Constants.updateCycle (constants : Constants) : Nat :=
  constants.cyclePrebpBlock * constants.numOfTopBps

def Constants.lackmortgageFreeze (constants : Constants) : Nat :=
  constants.updateCycle * constants.cyclePrehour

def coreSymbolPrecision : Nat := 10000

def rewardRatioPrecision : Nat := 10000

def rewardBp : Nat := 300

def rewardMine : Nat := rewardRatioPrecision - rewardBp

def blockOutWeight : Int := 1000

def mortgage : Nat := 8228

def punishBpFee : Int := 100 * coreSymbolPrecision

def bailPunishFee : Int := 10 * coreSymbolPrecision

def rewardRecordSize : Nat := 2000

def bpRewardRecordSize : Nat := 360

/-- The `total_staked` of the genesis producers `codex.bpa` to `codex.bpz`. -/
def genesisStakes : List Int :=
  [400000, 400000, 400000, 400000, 600000, 600000, 600000, 600000, 1300000, 1300000, 1300000,
    2100000, 2100000, 10000000, 10000000, 10000000, 10000000, 10000000, 10000000, 10000000,
    10000000, 100000, 100000, 100000, 100000, 100000]

def genesisMortgage : Int := 200000 * coreSymbolPrecision

/-! ### Rows -/

inductive ActiveType where
  | normal
  | punish
  | lackMortgage
  | removed
deriving DecidableEq

structure FreezeInfo where
  staked : Int
  unstaking : Int
  unstakeHeight : Nat

structure VoteInfo where
  vote : Int
  voteage : Int
  voteageUpdateHeight : Nat
  totalReward : Int

structure BpInfo where
  blockSigningKey : Nat
  commissionRate : Nat
  totalStaked : Int := 0
  rewardsBlock : Int := 0
  totalVoteage : Int := 0
  voteageUpdateHeight : Nat
  activeType : ActiveType := .normal
  blockAge : Int := 0
  lastBlockAmount : Nat := 0
  blockWeight : Int := blockOutWeight
  mortgage : Int := 0
  totalDrainBlock : Nat := 0
  remainPunish : Int := 0
  activeChangeBlockNum : Nat := 0
  rewardSize : Nat := 0

def BpInfo.isactive (bp : BpInfo) : Bool := bp.activeType ≠ .removed

structure Producer where
  bpname : AccountName
  amount : Nat

structure VoteRewardInfo where
  totalVoteage : Int
  totalReward : Int
  rewardBlockNum : Nat

/-- `reward_info`. The counter is kept in 32 bits. -/
structure RewardInfo where
  rewardBlockOut : Int := 0
  rewardBudget : Int := 0
  totalBlockOutAge : Int := 0
  cycleReward : Int
  gradient : Nat
  totalRewardTime : Nat := 0
  lastRewardBlockNum : Nat := 0
  rewardBlockNum : List Nat := [0]

structure PunishBpInfo where
  initiator : AccountName
  drainNum : Nat
  updateBlockNum : Nat

/-- The actions that the contract sends: to `force.token`, to `relay.token` and to itself. -/
inductive Sent where
  | transfer (sender recipient : AccountName) (quantity : Int) (memo : String)
  | issue (recipient : AccountName) (quantity : Int) (memo : String)
  | castcoin (sender recipient : AccountName) (quantity : Int)
  | settlemine
  | activemine
  | relayRewardmine (quantity : Int)
  | rewardmine (rewardNum : Int)

/-- The tables, the block that executes, the core tokens of every account, and the inline actions
that were sent and not executed yet. The last two fields are the history of the rewards, which no
action reads: what was issued, and what was passed on. -/
structure Tables where
  freezed : AList fun _ : AccountName => FreezeInfo := ∅
  votes : AList fun _ : AccountName × AccountName => VoteInfo := ∅
  votes4ram : AList fun _ : AccountName × AccountName => VoteInfo := ∅
  vote4ramsum : AList fun _ : AccountName => Int := ∅
  bps : AList fun _ : AccountName => BpInfo := ∅
  schedules : AList fun _ : Nat => List Producer := ∅
  reward : Option RewardInfo := none
  lastdrainbp : AList fun _ : AccountName => Nat := ∅
  punishbps : AList fun _ : AccountName => PunishBpInfo := ∅
  apppunishbps : AList fun _ : AccountName => List AccountName := ∅
  votereward : AccountName → List VoteRewardInfo := fun _ => []
  proposed : Option (List (AccountName × Nat)) := none
  blockNum : Nat := 0
  balances : AccountName → Int := fun _ => 0
  supply : Int := 0
  inline : List Sent := []
  issued : Int := 0
  passed : Int := 0

/-- What the contract takes from its libraries, from the host and from other contracts. -/
structure Environment extends AssetLib where
  constants : Constants
  /-- `config::system_account_name` -/
  systemAccount : AccountName
  /-- `config::reward_account_name` -/
  rewardAccount : AccountName
  reward_ne_system : rewardAccount ≠ systemAccount
  /-- `is_account` -/
  isAccount : AccountName → Bool
  /-- `is_genesis_bp` -/
  isGenesisBp : AccountName → Bool
  /-- the names `codex.bpa` to `codex.bpz` -/
  genesisNames : List AccountName
  /-- `get_coin_power`, if it does not throw -/
  coinPower : Nat → Option Int
  /-- the part of a reward for a voteage out of all, computed in `double`, if it can be converted -/
  voteShare : Int → Int → Int → Option Int
  voteShare_nonneg : ∀ amount voteage all share, 0 ≤ amount → 0 ≤ voteage → 0 ≤ all →
    voteShare amount voteage all = some share → 0 ≤ share
  /-- whether a cast of `force.token` is open for an account -/
  castOpened : Nat → AccountName → Bool
  /-- the issuer of the core token -/
  issuer : AccountName
  /-- the largest supply of the core token -/
  maxSupply : Int

/-- The system account is 1 and the reward account 2, every account exists, and rewards are shared
in integers. -/
def Environment.bounded : Environment where
  toAssetLib := .bounded 4 9
  constants := .beforeOnlineTest
  systemAccount := 1
  rewardAccount := 2
  reward_ne_system := by decide
  isAccount _ := true
  isGenesisBp _ := false
  genesisNames := []
  coinPower _ := some 0
  voteShare amount voteage all := some (amount * voteage / all)
  voteShare_nonneg amount voteage all share amountNonneg voteageNonneg allNonneg shared := by
    cases shared
    exact Int.ediv_nonneg (mul_nonneg amountNonneg voteageNonneg) allNonneg
  castOpened _ _ := true
  issuer := 1
  maxSupply := 2 ^ 60

/-! ### Amounts -/

variable (env : Environment)

def asset (amount : Int) : Checked Int := do
  eosioAssert (env.amountFits amount) "magnitude of asset amount must be less than 2^62"
  return amount

def plus (left right : Int) : Checked Int := do
  eosioAssert (env.addFits left right) "addition overflow"
  return left + right

def minus (left right : Int) : Checked Int := do
  eosioAssert (env.subFits left right) "subtraction overflow"
  return left - right

def times (amount factor : Int) : Checked Int := do
  eosioAssert (env.mulFits amount factor) "multiplication overflow or underflow"
  return amount * factor

def divide (amount divisor : Int) : Checked Int := do
  eosioAssert (divisor ≠ 0) "divide by zero"
  return amount.tdiv divisor

def stakeAmount (stake : Asset) : Checked Int := do
  eosioAssert (stake.symbol = env.coreSymbol) "only support CORE SYMBOL token"
  eosioAssert (0 ≤ stake.amount ∧ stake.amount % coreSymbolPrecision = 0)
    "need stake quantity >= 0 and quantity is integer"
  return stake.amount

variable {env}

theorem asset_eq_ok (made : asset env amount = .ok result) : result = amount := by
  obtain ⟨-, made⟩ := of_assert made
  cases made
  rfl

theorem plus_eq_ok (added : plus env left right = .ok result) : result = left + right := by
  obtain ⟨-, added⟩ := of_assert added
  cases added
  rfl

theorem minus_eq_ok (subtracted : minus env left right = .ok result) : result = left - right := by
  obtain ⟨-, subtracted⟩ := of_assert subtracted
  cases subtracted
  rfl

theorem divide_eq_ok {divisor : Int} (divided : divide amount divisor = .ok result) :
    divisor ≠ 0 ∧ result = amount.tdiv divisor := by
  obtain ⟨nonzero, divided⟩ := of_assert divided
  cases divided
  exact ⟨nonzero, rfl⟩

theorem stakeAmount_eq_ok {stake : Asset} (valued : stakeAmount env stake = .ok amount) :
    amount = stake.amount ∧ 0 ≤ amount := by
  obtain ⟨-, valued⟩ := of_assert valued
  obtain ⟨⟨nonneg, -⟩, valued⟩ := of_assert valued
  cases valued
  exact ⟨rfl, nonneg⟩

/-! ### Producers -/

/-- `get_genesis_bp_data`: the stake of a genesis producer, which has the genesis mortgage. -/
def Environment.getGenesisBpData (env : Environment) (bpname : AccountName) : Option Int :=
  ((env.genesisNames.zip genesisStakes).find? fun row => row.1 = bpname).map fun row => row.2

variable (tables : Tables)

def Tables.bpNames : List AccountName :=
  tables.bps.keys.insertionSort fun left right => left ≤ right

/-- The producers of the newest schedule, which `crbegin` finds. -/
def Tables.newestSchedule : Checked (List AccountName) := do
  let version ← requireRow tables.schedules.keys.max?
    "cannot decrement end iterator when the table is empty"
  return ((tables.schedules.lookup version).getD []).map Producer.bpname

def Tables.setBp (bpname : AccountName) (bp : BpInfo) : Tables :=
  { tables with bps := tables.bps.insert bpname bp }

def Tables.setFreeze (voter : AccountName) (row : FreezeInfo) : Tables :=
  { tables with freezed := tables.freezed.insert voter row }

def Tables.setVote (voter bpname : AccountName) (row : VoteInfo) : Tables :=
  { tables with votes := tables.votes.insert (voter, bpname) row }

def Tables.setVote4ram (voter bpname : AccountName) (row : VoteInfo) : Tables :=
  { tables with votes4ram := tables.votes4ram.insert (voter, bpname) row }

def Tables.setRecords (bpname : AccountName) (records : List VoteRewardInfo) :
    Tables :=
  { tables with votereward := Function.update tables.votereward bpname records }

end CodexRelay.Contracts.ForceSystem
