import CodexRelay.Contracts.Eosiolib
import CodexRelay.Library.FixedWidth
import CodexRelay.Library.KeyedSum

/-!
Contract: the contract `relay.token`, the tokens of other chains.

Owns:
- the tables `stat`, `accounts`, `accountid`, `reward` and `minereward`, and every action on them;
- the settlement of a holder, which takes a share of every mining reward record that was made since
  the holder settled last;
- the actions that an action sends.

The index `bychain` of `accounts` is not unique. `find` returns a row with the key, and which one it
is does not matter where there is only one.
-/

namespace CodexRelay.Contracts.RelayToken

open Chain Library

/-! ### Rows -/

/-- `account`; the primary key `id` is part of the table's key. -/
structure Account where
  balance : Asset
  chain : Name
  mineage : Int
  mineageUpdateHeight : Nat
  reward : Asset

structure RewardMineInfo where
  totalMineage : Int
  rewardPool : Asset
  rewardBlockNum : Nat

structure CurrencyStats where
  supply : Asset
  maxSupply : Asset
  issuer : AccountName
  chain : Name
  sideAccount : AccountName
  sideAction : Name
  totalMineage : Int
  totalMineageUpdateHeight : Nat
  rewardScope : Nat
  rewardSize : Nat
  coinWeight : Nat

structure RewardCurrency where
  id : Nat
  chain : Name
  supply : Asset
  rewardNow : Bool

abbrev Currency := Name × Nat

def currencyOf (chain : Name) (asset : Asset) : Currency := (chain, symbolName asset.symbol)

/-- The tables, and the number of the block that executes. The rows of `reward` are in the order of
their ids, and those of `minereward` in the order of their block numbers, in which they were made.
The last two fields are the history of every record, which no action reads. -/
structure Tables where
  accounts : AList fun _ : AccountName × Nat => Account := ∅
  accountNextIds : AccountName → Option Nat := fun _ => none
  stats : AList fun _ : Currency => CurrencyStats := ∅
  rewards : List RewardCurrency := []
  rewardMine : Nat → List RewardMineInfo := fun _ => []
  blockNum : Nat := 0
  assigned : Nat → Nat → Int := fun _ _ => 0
  credited : Nat → Nat → Int := fun _ _ => 0

/-- What the contract takes from its libraries, from the host and from other contracts. -/
structure Environment extends AssetLib where
  /-- `config::relay_account_name` -/
  relayAccount : AccountName
  /-- `config::system_account_name` -/
  systemAccount : AccountName
  /-- `config::match_account_name` -/
  matchAccount : AccountName
  /-- `config::bridge_account_name` -/
  bridgeAccount : AccountName
  isAccount : AccountName → Bool
  /-- `unpack< token::action >`, if the data can be read -/
  unpack : Bytes → Option (AccountName × AccountName × Asset × String)
  /-- `atoi` -/
  atoi : String → Int
  /-- the amount of `exchange::get_avg_price` at a block -/
  avgPrice : Nat → Name → SymbolType → Int
  /-- what is read through an iterator at the end -/
  unset : Int

/-- Every account exists, and every coin has the price 1. -/
def Environment.bounded : Environment where
  toAssetLib := .bounded 4 9
  relayAccount := 1
  systemAccount := 2
  matchAccount := 3
  bridgeAccount := 4
  isAccount _ := true
  unpack data := if data = [] then none else some (5, 6, ⟨10, 260⟩, "a")
  atoi _ := 1
  avgPrice _ _ _ := 1
  unset := 0

variable (env : Environment)

/-! ### Tables -/

namespace Tables

/-- `find` in the index `bychain` of the owner's accounts. -/
def find (tables : Tables) (owner : AccountName) (currency : Currency) : Option (Nat × Account) :=
  (tables.accounts.entries.find? fun row =>
    row.1.1 = owner ∧ currencyOf row.2.chain row.2.balance = currency).map fun row => (row.1.2, row.2)

variable (tables : Tables)

def setAccount (owner : AccountName) (id : Nat) (row : Account) : Tables :=
  { tables with accounts := tables.accounts.insert (owner, id) row }

def setStat (currency : Currency) (stat : CurrencyStats) : Tables :=
  { tables with stats := tables.stats.insert currency stat }

def setRecords (scope : Nat) (records : List RewardMineInfo) : Tables :=
  { tables with rewardMine := Function.update tables.rewardMine scope records }

/-- Rewards of the records of a scope that are credited to a holder. -/
def credit (scope : Nat) (credits : Nat → Int) : Tables :=
  { tables with credited := Function.update tables.credited scope fun blockNum =>
      tables.credited scope blockNum + credits blockNum }

/-- A pool that is assigned to the record of the block that executes. -/
def assign (scope : Nat) (amount : Int) : Tables :=
  { tables with assigned := Function.update tables.assigned scope (Function.update
      (tables.assigned scope) tables.blockNum (tables.assigned scope tables.blockNum + amount)) }

/-- `emplace` of an account row with the next id of the owner; a row with the id must not exist. -/
def emplaceAccount (owner : AccountName) (row : Account) : Checked Tables := do
  let id := (tables.accountNextIds owner).getD 1
  eosioAssert (tables.accounts.lookup (owner, id) = none) "could not insert object"
  return { tables.setAccount owner id row with
    accountNextIds := Function.update tables.accountNextIds owner (some (toUInt64 (id + 1))) }

end Tables

/-! ### Settlement -/

def coinRewardRecordSize : Nat := 360

def baseCoinWeight : Nat := 10000

/-- The variables of the loop of `settle_user`, and what each record has paid. -/
structure Walk where
  lastUpdateHeight : Nat
  lastMineage : Int
  totalReward : Asset
  crossDay : Bool
  credits : Nat → Int

def Walk.mineage (walk : Walk) (balance : Int) (record : RewardMineInfo) : Int :=
  toInt128 (walk.lastMineage +
    toInt64 (balance * toUInt32 (record.rewardBlockNum - walk.lastUpdateHeight)))

def settleRecord (balance : Int) (walk : Walk) (record : RewardMineInfo) :
    Checked (RewardMineInfo × Walk) :=
  if walk.lastUpdateHeight < record.rewardBlockNum ∧ 0 < record.totalMineage then do
    let mineage := walk.mineage balance record
    let reward ← env.asset
      (toInt64 ((toInt128 (record.rewardPool.amount * mineage)).tdiv record.totalMineage))
      env.coreSymbol
    let totalReward ← env.add walk.totalReward reward
    let rewardPool ← env.sub record.rewardPool reward
    return ({ record with totalMineage := toInt128 (record.totalMineage - mineage), rewardPool },
      { lastUpdateHeight := record.rewardBlockNum
        lastMineage := 0
        totalReward
        crossDay := true
        credits := Function.update walk.credits record.rewardBlockNum
          (walk.credits record.rewardBlockNum + reward.amount) })
  else return (record, walk)

def settleRecords (balance : Int) :
    Walk → List RewardMineInfo → Checked (List RewardMineInfo × Walk)
  | walk, [] => return ([], walk)
  | walk, record :: records => do
      let (record, walk) ← settleRecord env balance walk record
      let (records, walk) ← settleRecords balance walk records
      return (record :: records, walk)

def settleUser (owner : AccountName) (chain : Name) (value : Asset) (tables : Tables) :
    Checked Tables := do
  let (id, row) ← requireRow (tables.find owner (currencyOf chain value)) "no balance object found"
  eosioAssert (row.chain = chain) "symbol chain mismatch"
  let stat ← requireRow (tables.stats.lookup (currencyOf chain value))
    "settle wrong can not find stat"
  let (records, walk) ← settleRecords env row.balance.amount
    { lastUpdateHeight := row.mineageUpdateHeight
      lastMineage := row.mineage
      totalReward := env.coreAsset 0
      crossDay := false
      credits := fun _ => 0 } (tables.rewardMine stat.rewardScope)
  let reward ← env.add row.reward walk.totalReward
  let mineageAdd :=
    toInt64 (row.balance.amount * toUInt32 (tables.blockNum - walk.lastUpdateHeight))
  return ((tables.setRecords stat.rewardScope records).credit stat.rewardScope
      walk.credits).setAccount owner id { row with
    reward
    mineage := if walk.crossDay then mineageAdd else toInt128 (row.mineage + mineageAdd)
    mineageUpdateHeight := tables.blockNum }

def subBalance (owner : AccountName) (chain : Name) (value : Asset) (tables : Tables) :
    Checked Tables := do
  let tables ← settleUser env owner chain value tables
  let (id, row) ← requireRow (tables.find owner (currencyOf chain value)) "no balance object found"
  eosioAssert (value.amount ≤ row.balance.amount) "overdrawn balance"
  eosioAssert (row.chain = chain) "symbol chain mismatch"
  let balance ← env.sub row.balance value
  return tables.setAccount owner id { row with balance }

def addBalance (owner : AccountName) (chain : Name) (value : Asset) (tables : Tables) :
    Checked Tables :=
  match tables.find owner (currencyOf chain value) with
  | none => tables.emplaceAccount owner
      { balance := value
        chain
        mineage := 0
        mineageUpdateHeight := tables.blockNum
        reward := env.coreAsset 0 }
  | some _ => do
      let tables ← settleUser env owner chain value tables
      let (id, row) ← requireRow (tables.find owner (currencyOf chain value))
        "cannot pass end iterator to modify"
      let balance ← env.add row.balance value
      return tables.setAccount owner id { row with balance }

/-! ### Actions -/

/-- The actions of the contract, with the accounts that authorize them, and the end of a block. -/
inductive Call where
  | on (actors : List AccountName) (chain : Name) (act : Action)
  | create (actors : List AccountName) (issuer : AccountName) (chain : Name)
      (sideAccount : AccountName) (sideAction : Name) (maximumSupply : Asset)
  | issue (actors : List AccountName) (chain : Name) (recipient : AccountName) (quantity : Asset)
      (memo : String)
  | destroy (actors : List AccountName) (chain : Name) (sender : AccountName) (quantity : Asset)
      (memo : String)
  | transfer (actors : List AccountName) (sender recipient : AccountName) (chain : Name)
      (quantity : Asset) (memo : String)
  | trade (actors : List AccountName) (sender recipient : AccountName) (chain : Name)
      (quantity : Asset) (type : Nat) (memo : String)
  | addreward (actors : List AccountName) (chain : Name) (supply : Asset) (rewardNow : Int)
  | rewardmine (actors : List AccountName) (quantity : Asset)
  | claim (actors : List AccountName) (chain : Name) (quantity : Asset) (receiver : AccountName)
  | settlemine (actors : List AccountName)
  | activemine (actors : List AccountName)
  | setweight (actors : List AccountName) (chain : Name) (coin : Asset) (weight : Nat)
  | nextBlock

/-- An inline action: to the contract itself, to `sys.bridge` or to `force.token`. -/
inductive Sent where
  | self (call : Call)
  | addmortgage (trade : Name) (maker sender : AccountName) (chain : Name) (quantity : Asset)
      (type : Nat)
  | exchange (trade : Name) (maker sender recv : AccountName) (chain : Name) (quantity : Asset)
      (type : Nat)
  | castcoin (receiver : AccountName) (quantity : Asset)

def filtered (stat : CurrencyStats) (quantity : Asset) (memo : String) : Bool :=
  !env.symbolIsValid quantity.symbol || 256 < memo.utf8ByteSize || !env.isValid quantity ||
    quantity.amount ≤ 0 || quantity.symbol ≠ stat.supply.symbol ||
    toInt64 (stat.maxSupply.amount - stat.supply.amount) < quantity.amount ||
    memo.isEmpty || 13 ≤ memo.utf8ByteSize || !env.isAccount (env.stringToName memo)

variable (actors : List AccountName) (tables : Tables)

def on (chain : Name) (act : Action) (tables : Tables) : Checked (Tables × List Sent) := do
  requireAuth actors env.relayAccount
  let (_, _, quantity, memo) ← requireRow (env.unpack act.data) "read"
  return (tables, (tables.stats.lookup (currencyOf chain quantity)).elim [] fun stat =>
    if filtered env stat quantity memo then []
    else [.self (.issue [chain] chain (env.stringToName memo) quantity "from chain")])

def create (issuer : AccountName) (chain : Name)
    (sideAccount : AccountName) (sideAction : Name) (maximumSupply : Asset) (tables : Tables) :
    Checked Tables := do
  requireAuth actors chain
  eosioAssert (env.symbolIsValid maximumSupply.symbol) "invalid symbol name"
  eosioAssert (env.isValid maximumSupply) "invalid supply"
  eosioAssert (0 < maximumSupply.amount) "max-supply must be positive"
  eosioAssert (tables.stats.lookup (currencyOf chain maximumSupply) = none)
    "token with symbol already exists"
  return tables.setStat (currencyOf chain maximumSupply)
    { supply := ⟨0, maximumSupply.symbol⟩
      maxSupply := maximumSupply
      issuer
      chain
      sideAccount
      sideAction
      totalMineage := 0
      totalMineageUpdateHeight := tables.blockNum
      rewardScope := maxAmount.toNat
      rewardSize := 0
      coinWeight := baseCoinWeight }

/-- The mineage of a currency at the block of the action, where the product is an `int64_t`. -/
def CurrencyStats.mineageAt (stat : CurrencyStats) (blockNum : Nat) : Int :=
  toInt128 (stat.totalMineage +
    toInt64 (stat.supply.amount * toUInt32 (blockNum - stat.totalMineageUpdateHeight)))

def issue (actors : List AccountName) (chain : Name) (recipient : AccountName) (quantity : Asset)
    (memo : String) (tables : Tables) : Checked (Tables × List Sent) := do
  eosioAssert (env.symbolIsValid quantity.symbol) "invalid symbol name"
  eosioAssert (memo.utf8ByteSize ≤ 256) "memo has more than 256 bytes"
  let stat ← requireRow (tables.stats.lookup (currencyOf chain quantity))
    "token with symbol does not exist, create token before issue"
  requireAuth actors stat.issuer
  eosioAssert (env.isValid quantity) "invalid quantity"
  eosioAssert (0 < quantity.amount) "must issue positive quantity"
  eosioAssert (quantity.symbol = stat.supply.symbol) "symbol precision mismatch"
  eosioAssert (quantity.amount ≤ toInt64 (stat.maxSupply.amount - stat.supply.amount))
    "quantity exceeds available supply"
  let supply ← env.add stat.supply quantity
  let tables ← addBalance env stat.issuer chain quantity
    (tables.setStat (currencyOf chain quantity) { stat with
      totalMineage := stat.mineageAt tables.blockNum
      totalMineageUpdateHeight := tables.blockNum
      supply })
  return (tables, if recipient = stat.issuer then []
    else [.self (.transfer [stat.issuer] stat.issuer recipient chain quantity memo)])

def destroy (chain : Name) (sender : AccountName) (quantity : Asset)
    (memo : String) (tables : Tables) : Checked Tables := do
  requireAuth actors sender
  eosioAssert (env.symbolIsValid quantity.symbol) "invalid symbol name"
  eosioAssert (memo.utf8ByteSize ≤ 256) "memo has more than 256 bytes"
  let stat ← requireRow (tables.stats.lookup (currencyOf chain quantity))
    "token with symbol does not exist, create token before issue"
  eosioAssert (env.isValid quantity) "invalid quantity"
  eosioAssert (0 < quantity.amount) "must issue positive quantity"
  eosioAssert (quantity.symbol = stat.supply.symbol) "symbol precision mismatch"
  eosioAssert (quantity.amount ≤ stat.supply.amount) "quantity exceeds available supply"
  let supply ← env.sub stat.supply quantity
  subBalance env sender chain quantity
    (tables.setStat (currencyOf chain quantity) { stat with
      totalMineage := stat.mineageAt tables.blockNum
      totalMineageUpdateHeight := tables.blockNum
      supply })

def transfer (actors : List AccountName) (sender recipient : AccountName) (chain : Name)
    (quantity : Asset) (memo : String) (tables : Tables) : Checked Tables := do
  eosioAssert (sender ≠ recipient) "cannot transfer to self"
  requireAuth actors sender
  eosioAssert (env.isAccount recipient) "to account does not exist"
  let stat ← requireRow (tables.stats.lookup (currencyOf chain quantity)) "unable to find key"
  eosioAssert (env.isValid quantity) "invalid quantity"
  eosioAssert (0 < quantity.amount) "must transfer positive quantity"
  eosioAssert (quantity.symbol = stat.supply.symbol) "symbol precision mismatch"
  eosioAssert (chain = stat.chain) "symbol chain mismatch"
  eosioAssert (memo.utf8ByteSize ≤ 256) "memo has more than 256 bytes"
  let tables ← subBalance env sender chain quantity tables
  addBalance env recipient chain quantity tables

/-- `splitMemo` of the rest of a memo, after the characters of the current part, last first. An
empty part at the end is dropped. -/
def splitMemo (separator : Char) : List Char → List Char → List String
  | part, [] => if part = [] then [] else [String.ofList part.reverse]
  | part, char :: rest =>
    if char = separator then String.ofList part.reverse :: splitMemo separator [] rest
    else splitMemo separator (char :: part) rest

/-- `sys_bridge_addmort`: the trade, its maker and the coin. -/
def sysBridgeAddmort (memo : String) (sender : AccountName) (chain : Name) (quantity : Asset) :
    Checked Sent :=
  match splitMemo ';' [] memo.toList with
  | [tradeName, maker, type] => do
      let type := toUInt64 (env.atoi type)
      eosioAssert (type = 1 ∨ type = 2) "type is not adapted with bridge_addmortgage"
      return .addmortgage (env.stringToName tradeName) (env.stringToName maker) sender chain quantity
        type
  | _ => .error ⟨.eosioAssertMessageException, "memo is not adapted with bridge_addmortgage"⟩

/-- `sys_bridge_exchange`: also the account that receives the other coin. -/
def sysBridgeExchange (memo : String) (sender : AccountName) (chain : Name) (quantity : Asset) :
    Checked Sent :=
  match splitMemo ';' [] memo.toList with
  | [tradeName, maker, recv, type] => do
      let type := toUInt64 (env.atoi type)
      eosioAssert (type = 1 ∨ type = 2) "type is not adapted with bridge_addmortgage"
      return .exchange (env.stringToName tradeName) (env.stringToName maker) sender
        (env.stringToName recv) chain quantity type
  | _ => .error ⟨.eosioAssertMessageException, "memo is not adapted with bridge_addmortgage"⟩

/-- `trade`. A trade on `sys.match` only sends the transfer. -/
def trade (actors : List AccountName) (sender recipient : AccountName) (chain : Name)
    (quantity : Asset) (type : Nat) (memo : String) (tables : Tables) :
    Checked (Tables × List Sent) :=
  match type with
  | 1 => do
      eosioAssert (recipient = env.matchAccount) "to account should be match account"
      return (tables, [.self (.transfer [sender] sender recipient chain quantity memo)])
  | 2 => do
      let tables ← transfer env actors sender recipient chain quantity memo tables
      eosioAssert (recipient = env.bridgeAccount) "to account should be bridge account"
      let sent ← sysBridgeAddmort env memo sender chain quantity
      return (tables, [sent])
  | 3 => do
      let tables ← transfer env actors sender recipient chain quantity memo tables
      eosioAssert (recipient = env.bridgeAccount) "to account should be bridge account"
      let sent ← sysBridgeExchange env memo sender chain quantity
      return (tables, [sent])
  | _ => .error ⟨.eosioAssertMessageException, "invalid trade type"⟩

/-- `find` in the index `bychain` of the rewards. -/
def Tables.findReward (currency : Currency) : Option RewardCurrency :=
  tables.rewards.find? fun reward => currencyOf reward.chain reward.supply = currency

def addreward (chain : Name) (supply : Asset) (rewardNow : Int)
    (tables : Tables) : Checked Tables := do
  requireAuth actors env.systemAccount
  eosioAssert (env.symbolIsValid supply.symbol) "invalid symbol name"
  let stat ← requireRow (tables.stats.lookup (currencyOf chain supply))
    "token with symbol do not exists"
  eosioAssert (tables.findReward (currencyOf chain supply) = none) "token with symbol already exists"
  let rewardId := tables.rewards.getLast?.elim 0 fun last => last.id + 1
  eosioAssert (∀ record ∈ tables.rewardMine rewardId, record.rewardBlockNum ≠ tables.blockNum)
    "the reward info already exist"
  let listed : Tables := { tables with
    rewards := tables.rewards ++ [{ id := rewardId, chain, supply, rewardNow := rewardNow = 1 }] }
  return (listed.setStat (currencyOf chain supply) { stat with
      rewardScope := rewardId
      rewardSize := 1 }).setRecords rewardId (tables.rewardMine rewardId ++
        [{ totalMineage := 0, rewardPool := env.coreAsset 0, rewardBlockNum := tables.blockNum }])

def precision (decimals : Nat) : Int := toInt64 (10 ^ decimals)

def valued (mineage price : Int) (stat : CurrencyStats) : Int :=
  (toInt128 (mineage * price)).tdiv (precision (symbolPrecision stat.supply.symbol))

def power (mineage price : Int) (stat : CurrencyStats) : Int :=
  (toInt128 (valued mineage price stat * stat.coinWeight)).tdiv baseCoinWeight

def Tables.recordNow (scope : Nat) : Option RewardMineInfo :=
  (tables.rewardMine scope).find? fun record => record.rewardBlockNum = tables.blockNum

/-- The first loop of `rewardmine`. A missing record is read all the same. -/
def totalPower (tables : Tables) : List RewardCurrency → Nat → Checked Nat
  | [], sum => return sum
  | reward :: rewards, sum => do
      let stat ← requireRow (tables.stats.lookup (currencyOf reward.chain reward.supply))
        "token with symbol already exists"
      eosAssert (precision (symbolPrecision stat.supply.symbol) ≠ 0) .actionValidateException
        "divide by zero"
      totalPower tables rewards (toUInt128 (sum + power
        ((tables.recordNow stat.rewardScope).elim env.unset fun record => record.totalMineage)
        (env.avgPrice tables.blockNum stat.chain stat.supply.symbol) stat))

/-- The share of a record in the mining rewards, which is computed in `uint128_t`. -/
def devideAmount (mineage price quantity : Int) (sum : Nat) (stat : CurrencyStats) : Int :=
  toInt64 (toUInt128 (toUInt128 (toInt128 (valued mineage price stat * quantity)) / sum *
    stat.coinWeight : Nat) / baseCoinWeight : Nat)

/-- The second loop of `rewardmine`. -/
def devide (quantity : Asset) (sum : Nat) : List RewardCurrency → Tables → Checked Tables
  | [], tables => return tables
  | reward :: rewards, tables => do
      let stat ← requireRow (tables.stats.lookup (currencyOf reward.chain reward.supply))
        "token with symbol do not exists"
      let record ← requireRow (tables.recordNow stat.rewardScope)
        "cannot pass end iterator to modify"
      let rewardPool ← env.asset (devideAmount record.totalMineage
        (env.avgPrice tables.blockNum stat.chain stat.supply.symbol) quantity.amount sum stat)
        env.coreSymbol
      devide quantity sum rewards ((tables.setRecords stat.rewardScope
        ((tables.rewardMine stat.rewardScope).map fun other =>
          if other.rewardBlockNum = tables.blockNum then { other with rewardPool }
          else other)).assign stat.rewardScope rewardPool.amount)

def rewardmine (quantity : Asset) (tables : Tables) : Checked Tables := do
  requireAuth actors env.systemAccount
  let sum ← totalPower env tables tables.rewards 0
  if sum = 0 then return tables
  else devide env quantity sum tables.rewards tables

/-- The records of a currency after `settlemine` has appended one. With `COIN_REWARD_RECORD_SIZE`
records before, the first is erased and the second loses its pool. -/
def evict (rewardSize : Nat) (records : List RewardMineInfo) : Checked (List RewardMineInfo) :=
  if rewardSize = coinRewardRecordSize then
    match records with
    | _ :: second :: rest => return { second with rewardPool := env.coreAsset 0 } :: rest
    | _ => .error ⟨.eosioAssertMessageException, "cannot increment end iterator"⟩
  else return records

def CurrencyStats.closing (stat : CurrencyStats) (now : Nat) : RewardMineInfo where
  totalMineage := toInt128 (stat.totalMineage +
    toInt128 (stat.supply.amount * toUInt32 (now - stat.totalMineageUpdateHeight)))
  rewardPool := env.coreAsset 0
  rewardBlockNum := now

/-- The body of the loop of `settlemine`. A currency without a row is passed over. -/
def settleCurrency (reward : RewardCurrency) (tables : Tables) : Checked Tables :=
  (tables.stats.lookup (currencyOf reward.chain reward.supply)).elim (return tables) fun stat => do
    eosioAssert (tables.recordNow stat.rewardScope = none) "reward info already exist"
    let records ← evict env stat.rewardSize (tables.rewardMine stat.rewardScope ++
      [stat.closing env tables.blockNum])
    return (tables.setRecords stat.rewardScope records).setStat
      (currencyOf reward.chain reward.supply) { stat with
        totalMineage := 0
        totalMineageUpdateHeight := tables.blockNum
        rewardSize := if stat.rewardSize = coinRewardRecordSize then stat.rewardSize
          else stat.rewardSize + 1 }

/-- The loop of `settlemine`. -/
def settleCurrencies : List RewardCurrency → Tables → Checked Tables
  | [], tables => return tables
  | reward :: rewards, tables => do
      let tables ← settleCurrency env reward tables
      settleCurrencies rewards tables

def settlemine : Checked Tables := do
  requireAuth actors env.systemAccount
  settleCurrencies env tables.rewards tables

def activemine : Checked Tables := do
  requireAuth actors env.systemAccount
  return { tables with rewards := tables.rewards.map fun reward => { reward with rewardNow := true } }

def setweight (chain : Name) (coin : Asset) (weight : Nat) (tables : Tables) : Checked Tables := do
  requireAuth actors env.systemAccount
  let stat ← requireRow (tables.stats.lookup (currencyOf chain coin))
    "token with symbol do not exists"
  return tables.setStat (currencyOf chain coin) { stat with coinWeight := weight }

def claim (actors : List AccountName) (chain : Name) (quantity : Asset) (receiver : AccountName)
    (tables : Tables) : Checked (Tables × List Sent) := do
  requireAuth actors receiver
  eosioAssert (env.symbolIsValid quantity.symbol) "invalid symbol name"
  let _ ← requireRow (tables.findReward (currencyOf chain quantity))
    "token with symbol donot participate in dividends "
  let _ ← requireRow (tables.stats.lookup (currencyOf chain quantity))
    "token with symbol already exists"
  let tables ← settleUser env receiver chain quantity tables
  let (id, row) ← requireRow (tables.find receiver (currencyOf chain quantity))
    "no balance object found"
  eosioAssert (row.chain = chain) "symbol chain mismatch"
  let enough ← Eosiolib.lt (env.coreAsset (10 * 10000)) row.reward
  eosioAssert enough "claim amount must > 10"
  return (tables.setAccount receiver id { row with reward := env.coreAsset 0 },
    [.castcoin receiver row.reward])

def silent (ran : Checked Tables) : Checked (Tables × List Sent) := do
  let tables ← ran
  return (tables, [])

def execute : Call → Checked (Tables × List Sent)
  | .on actors chain act => on env actors chain act tables
  | .create actors issuer chain sideAccount sideAction maximumSupply =>
    silent (create env actors issuer chain sideAccount sideAction maximumSupply tables)
  | .issue actors chain recipient quantity memo =>
    issue env actors chain recipient quantity memo tables
  | .destroy actors chain sender quantity memo =>
    silent (destroy env actors chain sender quantity memo tables)
  | .transfer actors sender recipient chain quantity memo =>
    silent (transfer env actors sender recipient chain quantity memo tables)
  | .trade actors sender recipient chain quantity type memo =>
    trade env actors sender recipient chain quantity type memo tables
  | .addreward actors chain supply rewardNow =>
    silent (addreward env actors chain supply rewardNow tables)
  | .rewardmine actors quantity => silent (rewardmine env actors quantity tables)
  | .claim actors chain quantity receiver => claim env actors chain quantity receiver tables
  | .settlemine actors => silent (settlemine env actors tables)
  | .activemine actors => silent (activemine env actors tables)
  | .setweight actors chain coin weight => silent (setweight env actors chain coin weight tables)
  | .nextBlock => return ({ tables with blockNum := tables.blockNum + 1 }, [])

/-- An action. What it sends are actions of their own. -/
def step (call : Call) : Checked Tables := do
  let (tables, _) ← execute env tables call
  return tables

end CodexRelay.Contracts.RelayToken
