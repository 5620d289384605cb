import CodexRelay.Contracts.Eosiolib
import CodexRelay.Library.FixedWidth
import CodexRelay.Library.Run

/-!
Contract: the contract `sys.bridge`, markets where two coins are exchanged at a fixed ratio.

Owns:
- the trade pairs with their pools and fees, and the actions on them;
- the tokens that the contract holds, by chain and symbol. `addmortgage` and `exchange` come with a
  transfer of the amount they state;
- the transfers that an action sends. They are inline actions, which the host executes after the
  action, one after the other, so that other actions can come between.

Does not own: `settranscon`, the setup of the table that says which token contract pays a coin out.
The core token has no chain of its own, so the table gives it to one chain.
-/

namespace CodexRelay.Contracts.SysBridge

open Chain Library

/-! ### Rows -/

inductive FeeType where
  | fixed
  | proportion
  | proportionMincost
deriving DecidableEq

inductive TradeType where
  | equalRatio
  | bancor
deriving DecidableEq

inductive Side where
  | base
  | market
deriving DecidableEq

def Side.other : Side → Side
  | .base => .market
  | .market => .base

def Side.word : Side → String
  | .base => "base"
  | .market => "market"

/-- The side that a `coin_type` stands for. Anything but `coin_base` is taken for the market. -/
def sideOf (type : Int) : Side := if type = 1 then .base else .market

structure Coin where
  chain : Name
  amount : Asset
  weight : Nat
  feeAmount : Asset

/-- The fee of `trade_fee` for one of the coins. -/
structure CoinFee where
  fixed : Asset
  ratio : Nat

structure TradePair where
  tradeName : Name
  type : TradeType
  coin : Side → Coin
  tradeMaker : AccountName
  isactive : Bool
  fee : Side → CoinFee
  feeType : FeeType

/-- A token: the chain it comes from, and its symbol. -/
abbrev Token := Name × SymbolType

def Coin.token (coin : Coin) : Token := (coin.chain, coin.amount.symbol)

structure Payout where
  chain : Name
  recv : AccountName
  quantity : Asset
  memo : String
deriving DecidableEq

/-- The pairs by maker and name, the tokens held, and the transfers on their way, oldest first. -/
structure Bridge where
  pairs : AList fun _ : AccountName × Name => TradePair := ∅
  holdings : Token → Int := fun _ => 0
  inline : List Payout := []

/-- What the contract takes from its libraries and its setup. -/
structure Environment extends AssetLib where
  /-- the account of the contract -/
  self : AccountName
  /-- `config::relay_token_account_name` -/
  relayToken : AccountName
  /-- `config::token_account_name` -/
  coreToken : AccountName
  /-- the table `transcon`, by chain and symbol name -/
  transcon : Name → Nat → Option AccountName
  /-- what `exchange` computes with floating point numbers for `bancor` -/
  bancor : TradePair → Side → Int → Nat
  /-- what a ratio without initializer holds -/
  unset : Nat

/-- A contract with the account 1, where `relay.token` pays every coin out. -/
def Environment.bounded : Environment where
  toAssetLib := .bounded 4 0
  self := 1
  relayToken := 2
  coreToken := 3
  transcon _ _ := some 2
  bancor _ _ _ := 0
  unset := 0

variable (env : Environment)

/-! ### Checks and changes of a row -/

/-- The symbol and the amount of an asset that an action is given. -/
def checkAsset (asset : Asset) (positive : Bool) : Checked Unit := do
  eosioAssert (env.symbolIsValid asset.symbol) "invalid symbol name"
  eosioAssert (env.isValid asset) "invalid supply"
  eosioAssert (if positive then 0 < asset.amount else 0 ≤ asset.amount)
    "max-supply must be positive"

namespace Bridge

def find (bridge : Bridge) (maker : AccountName) (trade : Name) : Checked TradePair :=
  requireRow (bridge.pairs.lookup (maker, trade)) "the market is not exist"

def setPair (bridge : Bridge) (maker : AccountName) (trade : Name) (pair : TradePair) : Bridge :=
  { bridge with pairs := bridge.pairs.insert (maker, trade) pair }

def receive (bridge : Bridge) (chain : Name) (quantity : Asset) : Bridge :=
  { bridge with
    holdings := Function.update bridge.holdings (chain, quantity.symbol)
      (bridge.holdings (chain, quantity.symbol) + quantity.amount) }

def send (bridge : Bridge) (payouts : List Payout) : Bridge :=
  { bridge with inline := bridge.inline ++ payouts }

end Bridge

def TradePair.setCoin (pair : TradePair) (side : Side) (coin : Coin) : TradePair :=
  { pair with coin := Function.update pair.coin side coin }

def sendTransferAction (chain : Name) (recv : AccountName) (quantity : Asset) (memo : String) :
    Checked Payout := do
  let contractName ← requireRow (env.transcon chain (symbolName quantity.symbol))
    "contract object not found"
  eosioAssert (contractName = env.relayToken ∨ contractName = env.coreToken)
    "the contract is invalid"
  return { chain, recv, quantity, memo }

/-! ### Actions -/

/-- The row that `addmarket` writes, with empty pools. -/
def TradePair.opened (trade : Name) (maker : AccountName) (type : TradeType) (chain : Side → Name)
    (amount : Side → Asset) (weight : Side → Nat) : TradePair where
  tradeName := trade
  type
  coin side :=
    { chain := chain side
      amount := ⟨0, (amount side).symbol⟩
      weight := weight side
      feeAmount := ⟨0, (amount side).symbol⟩ }
  tradeMaker := maker
  isactive := true
  fee side := { fixed := ⟨0, (amount side).symbol⟩, ratio := env.unset }
  feeType := .fixed

variable (actors : List AccountName)

/-- `addmarket`; `emplace` refuses a name that the maker has used. -/
def addmarket (trade : Name) (maker : AccountName) (type : TradeType)
    (chain : Side → Name) (amount : Side → Asset) (weight : Side → Nat) (bridge : Bridge) :
    Checked Bridge := do
  requireAuth actors maker
  checkAsset env (amount .base) false
  checkAsset env (amount .market) false
  eosioAssert ((amount .base).symbol ≠ (amount .market).symbol ∨ chain .base ≠ chain .market)
    "a market must on two coin"
  eosioAssert (type = .equalRatio) "invalid trade type"
  eosioAssert (0 < weight .market) "invalid market_weight"
  eosioAssert (0 < weight .base) "invalid base_weight"
  eosioAssert (bridge.pairs.lookup (maker, trade) = none) "could not insert object"
  return bridge.setPair maker trade (.opened env trade maker type chain amount weight)

/-- `addmortgage`, with the transfer of the amount. -/
def addmortgage (trade : Name) (maker : AccountName) (coinChain : Name)
    (recharge : Asset) (type : Int) (bridge : Bridge) : Checked Bridge := do
  requireAuth actors env.self
  let pair ← bridge.find maker trade
  checkAsset env recharge true
  let coin := pair.coin (sideOf type)
  eosioAssert (recharge.symbol = coin.amount.symbol)
    "recharge coin is not the same coin on the market"
  eosioAssert (coinChain = coin.chain) "recharge chain is not the same chain on the market"
  let amount ← env.add coin.amount recharge
  return (bridge.receive coinChain recharge).setPair maker trade
    (pair.setCoin (sideOf type) { coin with amount })

def claimmortgage (trade : Name) (maker recv : AccountName)
    (claim : Asset) (type : Int) (bridge : Bridge) : Checked Bridge := do
  requireAuth actors maker
  let pair ← bridge.find maker trade
  checkAsset env claim true
  let coin := pair.coin (sideOf type)
  eosioAssert (claim.symbol = coin.amount.symbol) "recharge coin is not the same coin on the market"
  let covered ← Eosiolib.le claim coin.amount
  eosioAssert covered "overdrawn balance"
  let amount ← env.sub coin.amount claim
  let payout ← sendTransferAction env coin.chain recv claim "claim market transfer coin market"
  return (bridge.setPair maker trade
    (pair.setCoin (sideOf type) { coin with amount })).send [payout]

/-- `frozenmarket` and `trawmarket`, which set the state of the market. -/
def setActive (trade : Name) (maker : AccountName) (isactive : Bool)
    (message : String) (bridge : Bridge) : Checked Bridge := do
  requireAuth actors maker
  let pair ← bridge.find maker trade
  eosioAssert (pair.isactive = !isactive) message
  return bridge.setPair maker trade { pair with isactive }

def frozenmarket (trade : Name) (maker : AccountName) :
    Bridge → Checked Bridge :=
  setActive actors trade maker false "the market is not active"

def trawmarket (trade : Name) (maker : AccountName) :
    Bridge → Checked Bridge :=
  setActive actors trade maker true "the market is already active"

def checkFixed (pair : TradePair) (fixed : Side → Asset) : Checked Unit := do
  checkAsset env (fixed .base) false
  checkAsset env (fixed .market) false
  eosioAssert ((pair.fee .base).fixed.symbol = (fixed .base).symbol)
    "base asset is different coin with fee base"
  eosioAssert ((pair.fee .market).fixed.symbol = (fixed .market).symbol)
    "base asset is different coin with fee base"

def proportionCard : Nat := 10000

def checkRatio (ratio : Side → Nat) : Checked Unit := do
  eosioAssert (ratio .base < proportionCard) "base_ratio must between 0 and 10000"
  eosioAssert (ratio .market < proportionCard) "market_ratio must between 0 and 10000"

def setfixedfee (trade : Name) (maker : AccountName)
    (fixed : Side → Asset) (bridge : Bridge) : Checked Bridge := do
  requireAuth actors maker
  let pair ← bridge.find maker trade
  checkFixed env pair fixed
  eosioAssert (pair.isactive = false) "only frozen market can set fixedfee"
  return bridge.setPair maker trade { pair with
    fee := fun side => { pair.fee side with fixed := fixed side }
    feeType := .fixed }

def setprofee (trade : Name) (maker : AccountName) (ratio : Side → Nat)
    (bridge : Bridge) : Checked Bridge := do
  requireAuth actors maker
  let pair ← bridge.find maker trade
  checkRatio ratio
  eosioAssert (pair.isactive = false) "only frozen market can set proportion fee"
  return bridge.setPair maker trade { pair with
    fee := fun side => { pair.fee side with ratio := ratio side }
    feeType := .proportion }

def setprominfee (trade : Name) (maker : AccountName)
    (ratio : Side → Nat) (fixed : Side → Asset) (bridge : Bridge) : Checked Bridge := do
  requireAuth actors maker
  let pair ← bridge.find maker trade
  checkFixed env pair fixed
  checkRatio ratio
  eosioAssert (pair.isactive = false) "only frozen market can set proportion and min fee"
  return bridge.setPair maker trade { pair with
    fee := fun side => { fixed := fixed side, ratio := ratio side }
    feeType := .proportionMincost }

def setweight (trade : Name) (maker : AccountName)
    (weight : Side → Nat) (bridge : Bridge) : Checked Bridge := do
  requireAuth actors maker
  let pair ← bridge.find maker trade
  eosioAssert (0 < weight .market) "invalid market_weight"
  eosioAssert (0 < weight .base) "invalid base_weight"
  eosioAssert (pair.isactive = false) "only frozen market can set weight"
  return bridge.setPair maker trade { pair with
    coin := fun side => { pair.coin side with weight := weight side } }

/-- The amount before the fee that `exchange` computes in `uint64_t`. -/
def TradePair.grossAmount (pair : TradePair) (paid : Side) (amount : Int) : Nat :=
  match pair.type with
  | .equalRatio =>
    toUInt64 (amount * (pair.coin paid.other).weight) / (pair.coin paid).weight
  | .bancor => env.bancor pair paid amount

/-- The fee for the coin that is paid out, in `uint64_t`. -/
def TradePair.feeAmount (pair : TradePair) (side : Side) (gross : Nat) : Nat :=
  let fixed := toUInt64 (pair.fee side).fixed.amount
  let proportion := toUInt64 (gross * (pair.fee side).ratio) / proportionCard
  match pair.feeType with
  | .fixed => fixed
  | .proportion => proportion
  | .proportionMincost => if fixed < proportion then proportion else fixed

/-- `exchange`, with the transfer of the amount. Only `coin_market` pays the base coin out on the
chain of the base coin. -/
def exchange (actors : List AccountName) (trade : Name) (maker recv : AccountName)
    (coinChain : Name) (convert : Asset) (type : Int) (bridge : Bridge) : Checked Bridge := do
  requireAuth actors env.self
  let pair ← bridge.find maker trade
  eosioAssert pair.isactive "the market is not active"
  checkAsset env convert true
  let paid := sideOf type
  eosioAssert (convert.symbol = (pair.coin paid).amount.symbol)
    ("covert coin is not the same coin on the " ++ paid.word)
  eosioAssert (coinChain = (pair.coin paid).chain)
    ("covert chain is not the same chain on the " ++ paid.word)
  let pool := (pair.coin paid.other).amount
  let gross := pair.grossAmount env paid convert.amount
  let fee := pair.feeAmount paid.other gross
  let recvAmount := toUInt64 (gross - fee)
  eosioAssert (recvAmount < toUInt64 pool.amount) "the market do not has enough dest coin"
  let recvAsset ← env.asset (toInt64 recvAmount) pool.symbol
  let feeAsset ← env.asset (toInt64 fee) pool.symbol
  let deposited ← env.add (pair.coin paid).amount convert
  let rest ← env.sub pool recvAsset
  let rest ← env.sub rest feeAsset
  let fees ← env.add (pair.coin paid.other).feeAmount feeAsset
  let payout ← sendTransferAction env
    (if type = 2 then (pair.coin .base).chain else (pair.coin .market).chain) recv recvAsset
    "exchange market transfer coin market"
  return ((bridge.receive coinChain convert).setPair maker trade
    ((pair.setCoin paid { pair.coin paid with amount := deposited }).setCoin paid.other
      { pair.coin paid.other with amount := rest, feeAmount := fees })).send [payout]

/-- A transfer that `removemarket` sends if there is something to return. -/
def returnCoins (chain : Name) (recv : AccountName) (quantity : Asset) (memo : String) :
    Checked (List Payout) :=
  if 0 < quantity.amount then do
    let payout ← sendTransferAction env chain recv quantity memo
    return [payout]
  else return []

/-- The subtractions of `removemarket` from the row that it erases then. -/
def TradePair.clear (pair : TradePair) : Checked Unit := do
  let base ← env.sub (pair.coin .base).amount (pair.coin .base).amount
  let market ← env.sub (pair.coin .market).amount (pair.coin .market).amount
  let _ ← env.sub (pair.coin .base).feeAmount base
  let _ ← env.sub (pair.coin .market).feeAmount market
  return ()

def removemarket (trade : Name) (maker : AccountName)
    (recv : Side → AccountName) (bridge : Bridge) : Checked Bridge := do
  requireAuth actors maker
  let pair ← bridge.find maker trade
  let base := pair.coin .base
  let market := pair.coin .market
  let baseAmount ← returnCoins env base.chain (recv .base) base.amount
    "remove market return the base coins"
  let marketAmount ← returnCoins env market.chain (recv .market) market.amount
    "remove market return the market coins"
  let baseFee ← returnCoins env base.chain (recv .base) base.feeAmount
    "remove market return the base fee coins"
  let marketFee ← returnCoins env market.chain (recv .market) market.feeAmount
    "remove market return the market fee coins"
  pair.clear env
  return { bridge with pairs := bridge.pairs.erase (maker, trade) }.send
    (baseAmount ++ marketAmount ++ baseFee ++ marketFee)

def claimfee (trade : Name) (maker recv : AccountName) (type : Int)
    (bridge : Bridge) : Checked Bridge := do
  requireAuth actors maker
  let pair ← bridge.find maker trade
  let coin := pair.coin (sideOf type)
  let payout ← sendTransferAction env coin.chain recv coin.feeAmount
    "claim fee transfer coin market"
  return (bridge.setPair maker trade (pair.setCoin (sideOf type)
    { coin with feeAmount := ⟨0, coin.feeAmount.symbol⟩ })).send [payout]

/-- The execution of the next inline transfer by the token contract. -/
def executeTransfer (bridge : Bridge) : Checked Bridge :=
  match bridge.inline with
  | [] => .error ⟨.actionValidateException, "no inline action"⟩
  | payout :: rest => do
      let token : Token := (payout.chain, payout.quantity.symbol)
      eosioAssert (payout.recv ≠ env.self) "cannot transfer to self"
      eosioAssert (0 < payout.quantity.amount) "must transfer positive quantity"
      eosioAssert (payout.quantity.amount ≤ bridge.holdings token) "overdrawn balance"
      return { bridge with
        holdings := Function.update bridge.holdings token
          (bridge.holdings token - payout.quantity.amount)
        inline := rest }

inductive Call where
  | addmarket (actors : List AccountName) (trade : Name) (maker : AccountName) (type : TradeType)
      (chain : Side → Name) (amount : Side → Asset) (weight : Side → Nat)
  | addmortgage (actors : List AccountName) (trade : Name) (maker : AccountName) (coinChain : Name)
      (recharge : Asset) (type : Int)
  | claimmortgage (actors : List AccountName) (trade : Name) (maker recv : AccountName)
      (claim : Asset) (type : Int)
  | frozenmarket (actors : List AccountName) (trade : Name) (maker : AccountName)
  | trawmarket (actors : List AccountName) (trade : Name) (maker : AccountName)
  | setfixedfee (actors : List AccountName) (trade : Name) (maker : AccountName)
      (fixed : Side → Asset)
  | setprofee (actors : List AccountName) (trade : Name) (maker : AccountName) (ratio : Side → Nat)
  | setprominfee (actors : List AccountName) (trade : Name) (maker : AccountName)
      (ratio : Side → Nat) (fixed : Side → Asset)
  | setweight (actors : List AccountName) (trade : Name) (maker : AccountName) (weight : Side → Nat)
  | exchange (actors : List AccountName) (trade : Name) (maker recv : AccountName)
      (coinChain : Name) (convert : Asset) (type : Int)
  | removemarket (actors : List AccountName) (trade : Name) (maker : AccountName)
      (recv : Side → AccountName)
  | claimfee (actors : List AccountName) (trade : Name) (maker recv : AccountName) (type : Int)
  | executeTransfer

def step (bridge : Bridge) : Call → Checked Bridge
  | .addmarket actors trade maker type chain amount weight =>
    addmarket env actors trade maker type chain amount weight bridge
  | .addmortgage actors trade maker coinChain recharge type =>
    addmortgage env actors trade maker coinChain recharge type bridge
  | .claimmortgage actors trade maker recv claim type =>
    claimmortgage env actors trade maker recv claim type bridge
  | .frozenmarket actors trade maker => frozenmarket actors trade maker bridge
  | .trawmarket actors trade maker => trawmarket actors trade maker bridge
  | .setfixedfee actors trade maker fixed => setfixedfee env actors trade maker fixed bridge
  | .setprofee actors trade maker ratio => setprofee actors trade maker ratio bridge
  | .setprominfee actors trade maker ratio fixed =>
    setprominfee env actors trade maker ratio fixed bridge
  | .setweight actors trade maker weight => setweight actors trade maker weight bridge
  | .exchange actors trade maker recv coinChain convert type =>
    exchange env actors trade maker recv coinChain convert type bridge
  | .removemarket actors trade maker recv => removemarket env actors trade maker recv bridge
  | .claimfee actors trade maker recv type => claimfee env actors trade maker recv type bridge
  | .executeTransfer => executeTransfer env bridge

end CodexRelay.Contracts.SysBridge
