import CodexRelay.Contracts.SysBridge.Model
import CodexRelay.Library.KeyedSum

/-!
Contract: `sys.bridge` can pay what its pairs hold.

`exchange` compares the pool with what the taker gets, and then takes that and the fee from the
pool. So a fee can be larger than what is left. Where the amount before the fee is in the pool, no
amount of a pair gets negative and the tokens held cover the pairs and the transfers on their way.

Owns:
- `Solvent`, what it means that the contract can pay;
- the invariant `Sound`, which also counts the transfers that were sent and not executed;
- the step lemma of every action and the theorem over runs.
-/

namespace CodexRelay.Contracts.SysBridge

open Chain Library List Function TradePair AssetLib

variable {chain : Name} {pair : TradePair} {α : Type} {memo : String} {type : Int}
  {fixed : Side → Asset} {ratio : Side → Nat}

variable {asset left right quantity convert : Asset} {side : Side} {coin : Coin}
  {weight : Side → Nat} {coinChain : Name}

/-! ### What is owed -/

def worth (chain : Name) (asset : Asset) (token : Token) : Int :=
  if (chain, asset.symbol) = token then asset.amount else 0

def Coin.owed (coin : Coin) (token : Token) : Int :=
  worth coin.chain coin.amount token + worth coin.chain coin.feeAmount token

def TradePair.owed (pair : TradePair) (token : Token) : Int :=
  (pair.coin .base).owed token + (pair.coin .market).owed token

def Bridge.owed (bridge : Bridge) (token : Token) : Int :=
  total (fun pair => pair.owed token) bridge.pairs

/-- No amount of a pair is negative, and the tokens held cover what the pairs hold. -/
structure Bridge.Solvent (bridge : Bridge) : Prop where
  nonneg : ∀ key pair, bridge.pairs.lookup key = some pair → ∀ side,
    0 ≤ (pair.coin side).amount.amount ∧ 0 ≤ (pair.coin side).feeAmount.amount
  covered : ∀ token, bridge.owed token ≤ bridge.holdings token

/-- The amount before the fee is in the pool, and the coin that is paid out is paid on its chain. -/
def Covered (bridge : Bridge) : Call → Prop
  | .exchange _ trade maker _ _ convert type =>
    ∀ pair ∈ bridge.pairs.lookup (maker, trade),
      (toUInt64 (convert.amount * (pair.coin (sideOf type).other).weight) /
          (pair.coin (sideOf type)).weight : Nat) ≤ (pair.coin (sideOf type).other).amount.amount ∧
        (type = 1 ∨ type = 2 ∨ (pair.coin .base).chain = (pair.coin .market).chain)
  | _ => True

instance (bridge : Bridge) : (call : Call) → Decidable (Covered bridge call)
  | .exchange .. => inferInstanceAs (Decidable (∀ _ ∈ _, _))
  | .addmarket .. | .addmortgage .. | .claimmortgage .. | .frozenmarket .. | .trawmarket ..
  | .setfixedfee .. | .setprofee .. | .setprominfee .. | .setweight .. | .removemarket ..
  | .claimfee .. | .executeTransfer => .isTrue trivial

/-! ### The invariant -/

def pending (payouts : List Payout) (token : Token) : Int :=
  (payouts.map fun payout => worth payout.chain payout.quantity token).sum

theorem worth_nonneg {token : Token} (nonneg : 0 ≤ asset.amount) : 0 ≤ worth chain asset token := by
  unfold worth
  split_ifs
  · exact nonneg
  · exact le_rfl

theorem worth_zero (chain : Name) (symbol : SymbolType) (token : Token) :
    worth chain ⟨0, symbol⟩ token = 0 :=
  ite_self 0

theorem worth_add (same : right.symbol = left.symbol) (chain : Name) (token : Token) :
    worth chain ⟨left.amount + right.amount, left.symbol⟩ token =
      worth chain left token + worth chain right token := by
  unfold worth
  rw [same]
  split_ifs
  · rfl
  · rfl

theorem worth_sub (same : right.symbol = left.symbol) (chain : Name) (token : Token) :
    worth chain ⟨left.amount - right.amount, left.symbol⟩ token =
      worth chain left token - worth chain right token := by
  unfold worth
  rw [same]
  split_ifs
  · rfl
  · rfl

@[simp] theorem pending_nil (token : Token) : pending [] token = 0 := rfl

@[simp] theorem pending_cons (payout : Payout) (payouts : List Payout) (token : Token) :
    pending (payout :: payouts) token =
      worth payout.chain payout.quantity token + pending payouts token :=
  rfl

@[simp] theorem pending_append (left right : List Payout) (token : Token) :
    pending (left ++ right) token = pending left token + pending right token := by
  simp [pending]

/-- A coin whose amounts are nonnegative `int64_t` of one symbol. -/
structure Coin.Sound (coin : Coin) : Prop where
  symbol : coin.feeAmount.symbol = coin.amount.symbol
  nonneg : 0 ≤ coin.amount.amount
  fits : coin.amount.amount < 2 ^ 63
  feeNonneg : 0 ≤ coin.feeAmount.amount

structure TradePair.Sound (pair : TradePair) : Prop where
  type : pair.type = .equalRatio
  coin : ∀ side, (pair.coin side).Sound
  fixed : ∀ side, 0 ≤ (pair.fee side).fixed.amount ∧ (pair.fee side).fixed.amount < 2 ^ 63

/-- The tokens held cover the pairs and the transfers on their way. -/
structure Bridge.Sound (bridge : Bridge) : Prop where
  pair : ∀ key pair, bridge.pairs.lookup key = some pair → pair.Sound
  payout : ∀ payout ∈ bridge.inline, 0 ≤ payout.quantity.amount
  covered : ∀ token, bridge.owed token + pending bridge.inline token ≤ bridge.holdings token

theorem pending_nonneg {payouts : List Payout}
    (nonneg : ∀ payout ∈ payouts, 0 ≤ payout.quantity.amount) (token : Token) :
    0 ≤ pending payouts token := by
  apply sum_nonneg
  intro amount mem
  obtain ⟨payout, sent, rfl⟩ := mem_map.mp mem
  exact worth_nonneg (nonneg payout sent)

theorem Bridge.Sound.solvent {bridge : Bridge} (sound : bridge.Sound) : bridge.Solvent where
  nonneg key pair found side :=
    ⟨((sound.pair key pair found).coin side).nonneg, ((sound.pair key pair found).coin side).feeNonneg⟩
  covered token := by
    have sent := pending_nonneg sound.payout token
    have covered := sound.covered token
    omega

theorem TradePair.owed_setCoin (pair : TradePair) (side : Side) (coin : Coin) (token : Token) :
    (pair.setCoin side coin).owed token =
      pair.owed token - (pair.coin side).owed token + coin.owed token := by
  unfold owed setCoin
  cases side with
  | base =>
    simp only [update_self, update_of_ne (show Side.market ≠ .base by decide)]
    omega
  | market =>
    simp only [update_self, update_of_ne (show Side.base ≠ .market by decide)]
    omega

theorem TradePair.Sound.setCoin (sound : pair.Sound) (coinSound : coin.Sound) :
    (pair.setCoin side coin).Sound where
  type := sound.type
  coin other := by
    show (update pair.coin side coin other).Sound
    by_cases same : other = side
    · subst same
      rwa [update_self]
    · rw [update_of_ne same]
      exact sound.coin other
  fixed := sound.fixed

/-- A row that is written, with what is received and sent for it. -/
theorem Bridge.Sound.insert {bridge : Bridge} (sound : bridge.Sound) (key : AccountName × Name)
    (payouts : List Payout) (holdings : Token → Int) (pairSound : pair.Sound)
    (nonneg : ∀ payout ∈ payouts, 0 ≤ payout.quantity.amount)
    (balanced : ∀ token, pair.owed token + pending payouts token -
        measureAt (fun pair => pair.owed token) bridge.pairs key ≤
      holdings token - bridge.holdings token) :
    Bridge.Sound ⟨bridge.pairs.insert key pair, holdings, bridge.inline ++ payouts⟩ where
  pair other row found := by
    by_cases same : other = key
    · subst same
      rw [AList.lookup_insert] at found
      cases found
      exact pairSound
    · rw [AList.lookup_insert_ne same] at found
      exact sound.pair other row found
  payout payout mem := by
    rcases mem_append.mp mem with earlier | sent
    · exact sound.payout payout earlier
    · exact nonneg payout sent
  covered token := by
    have covered := sound.covered token
    have changed := balanced token
    show total (fun pair => pair.owed token) (bridge.pairs.insert key pair) +
      pending (bridge.inline ++ payouts) token ≤ holdings token
    rw [total_insert, pending_append]
    unfold owed at covered
    omega

theorem Bridge.Sound.replace {bridge : Bridge} (sound : bridge.Sound) {key : AccountName × Name}
    {old : TradePair} (found : bridge.pairs.lookup key = some old) (pairSound : pair.Sound)
    (same : ∀ token, pair.owed token = old.owed token) :
    Bridge.Sound { bridge with pairs := bridge.pairs.insert key pair } := by
  have kept := sound.insert key [] bridge.holdings pairSound nofun fun token => by
    rw [measureAt_of_some found, pending_nil, same]
    omega
  rwa [append_nil] at kept

/-! ### Actions -/

variable {env : Environment} {bridge result : Bridge} {actors : List AccountName} {trade : Name}
  {maker recv : AccountName}

theorem checkAsset_bind {positive : Bool} {next : Unit → Checked α} {value : α}
    (ran : (checkAsset env asset positive >>= next) = .ok value) :
    0 ≤ asset.amount ∧ asset.amount < 2 ^ 63 ∧ next () = .ok value := by
  obtain ⟨_, checked, rest⟩ := of_bind ran
  obtain ⟨-, checked⟩ := of_assert checked
  obtain ⟨valid, checked⟩ := of_assert checked
  have sign := eosioAssert_eq_ok.mp checked
  have bound := (env.amountFits_lt _ (Bool.and_eq_true_iff.mp valid).1).2
  refine ⟨?_, bound, rest⟩
  split_ifs at sign
  · exact sign.le
  · exact sign

theorem find_bind {next : TradePair → Checked α} {value : α}
    (ran : (requireAuth actors account >>= fun _ => bridge.find maker trade >>= next) = .ok value) :
    ∃ pair, bridge.pairs.lookup (maker, trade) = some pair ∧ next pair = .ok value :=
  of_row (of_auth ran).2

theorem sendTransferAction_bind {next : Payout → Checked α} {value : α}
    (ran : (sendTransferAction env chain recv quantity memo >>= next) = .ok value) :
    next { chain, recv, quantity, memo } = .ok value := by
  obtain ⟨payout, sent, rest⟩ := of_bind ran
  obtain ⟨contractName, -, sent⟩ := of_row sent
  obtain ⟨-, sent⟩ := of_assert sent
  cases sent
  exact rest

theorem sound_of_addmarket {type : TradeType} {chain : Side → Name} {amount : Side → Asset}
    (sound : bridge.Sound)
    (ran : addmarket env actors trade maker type chain amount weight bridge = .ok result) :
    result.Sound := by
  obtain ⟨-, ran⟩ := of_auth ran
  obtain ⟨-, -, ran⟩ := checkAsset_bind ran
  obtain ⟨-, -, ran⟩ := checkAsset_bind ran
  obtain ⟨-, ran⟩ := of_assert ran
  obtain ⟨ratio, ran⟩ := of_assert ran
  obtain ⟨-, ran⟩ := of_assert ran
  obtain ⟨-, ran⟩ := of_assert ran
  obtain ⟨missing, ran⟩ := of_assert ran
  cases ran
  have opened : (opened env trade maker type chain amount weight).Sound :=
    { type := ratio
      coin := fun side => ⟨rfl, le_rfl, show (0 : Int) < 2 ^ 63 by decide, le_rfl⟩
      fixed := fun side => ⟨le_rfl, show (0 : Int) < 2 ^ 63 by decide⟩ }
  have nothing (token : Token) :
      (TradePair.opened env trade maker type chain amount weight).owed token = 0 := by
    simp only [TradePair.owed, Coin.owed, TradePair.opened, worth_zero, add_zero]
  have kept := sound.insert (maker, trade) [] bridge.holdings opened nofun fun token => by
    rw [measureAt_of_none missing, pending_nil, nothing]
    omega
  rwa [append_nil] at kept

/-- An amount of one coin of a pair that changes, and a transfer that takes what is missing. -/
theorem Bridge.Sound.setCoin (sound : bridge.Sound)
    (found : bridge.pairs.lookup (maker, trade) = some pair) (side : Side) (coinSound : coin.Sound)
    (payouts : List Payout) (holdings : Token → Int)
    (nonneg : ∀ payout ∈ payouts, 0 ≤ payout.quantity.amount)
    (balanced : ∀ token, coin.owed token + pending payouts token - (pair.coin side).owed token ≤
      holdings token - bridge.holdings token) :
    Bridge.Sound ⟨bridge.pairs.insert (maker, trade) (pair.setCoin side coin), holdings,
      bridge.inline ++ payouts⟩ := by
  apply sound.insert _ _ _ ((sound.pair _ _ found).setCoin coinSound) nonneg
  intro token
  rw [measureAt_of_some found, owed_setCoin]
  have changed := balanced token
  omega

theorem holdings_receive (bridge : Bridge) (chain : Name) (quantity : Asset) (token : Token) :
    (bridge.receive chain quantity).holdings token =
      bridge.holdings token + worth chain quantity token := by
  unfold Bridge.receive worth
  by_cases same : (chain, quantity.symbol) = token
  · subst same
    simp only [update_self, if_pos]
  · simp only [update_of_ne (Ne.symm same), if_neg same, add_zero]

theorem sound_of_addmortgage {recharge : Asset} (sound : bridge.Sound)
    (ran : addmortgage env actors trade maker coinChain recharge type bridge = .ok result) :
    result.Sound := by
  obtain ⟨pair, found, ran⟩ := find_bind ran
  obtain ⟨positive, -, ran⟩ := checkAsset_bind ran
  obtain ⟨symbol, ran⟩ := of_assert ran
  obtain ⟨chain, ran⟩ := of_assert ran
  obtain ⟨amount, added, ran⟩ := of_bind ran
  obtain ⟨rfl, -, -, fits⟩ := eq_of_add added
  cases ran
  have coinSound := (sound.pair _ _ found).coin (sideOf type)
  have grown : Coin.Sound { pair.coin (sideOf type) with
      amount := ⟨(pair.coin (sideOf type)).amount.amount + recharge.amount,
        (pair.coin (sideOf type)).amount.symbol⟩ } :=
    { coinSound with
      nonneg := add_nonneg coinSound.nonneg positive
      fits }
  have kept := sound.setCoin found (sideOf type) grown []
    (bridge.receive coinChain recharge).holdings nofun fun token => by
      simp only [holdings_receive, Coin.owed, pending_nil, worth_add symbol, chain]
      omega
  rwa [append_nil] at kept

theorem sound_of_claimmortgage {claim : Asset} (sound : bridge.Sound)
    (ran : claimmortgage env actors trade maker recv claim type bridge = .ok result) :
    result.Sound := by
  obtain ⟨pair, found, ran⟩ := find_bind ran
  obtain ⟨positive, -, ran⟩ := checkAsset_bind ran
  obtain ⟨symbol, ran⟩ := of_assert ran
  obtain ⟨covered, compared, ran⟩ := of_bind ran
  obtain ⟨enough, ran⟩ := of_assert ran
  obtain ⟨amount, subtracted, ran⟩ := of_bind ran
  obtain ⟨rfl, -, -, fits⟩ := eq_of_sub subtracted
  cases sendTransferAction_bind ran
  subst enough
  have coinSound := (sound.pair _ _ found).coin (sideOf type)
  have shrunk : Coin.Sound { pair.coin (sideOf type) with
      amount := ⟨(pair.coin (sideOf type)).amount.amount - claim.amount,
        (pair.coin (sideOf type)).amount.symbol⟩ } :=
    { coinSound with
      nonneg := sub_nonneg.mpr (Eosiolib.amount_le_of_le compared)
      fits }
  refine sound.setCoin found (sideOf type) shrunk [_] bridge.holdings ?_ fun token => ?_
  · intro payout sent
    rw [mem_singleton.mp sent]
    exact positive
  · simp only [Coin.owed, pending_cons, pending_nil, worth_sub symbol]
    omega

theorem sound_of_claimfee (sound : bridge.Sound)
    (ran : claimfee env actors trade maker recv type bridge = .ok result) : result.Sound := by
  obtain ⟨pair, found, ran⟩ := find_bind ran
  cases sendTransferAction_bind ran
  have coinSound := (sound.pair _ _ found).coin (sideOf type)
  have claimed : Coin.Sound { pair.coin (sideOf type) with
      feeAmount := ⟨0, (pair.coin (sideOf type)).feeAmount.symbol⟩ } :=
    { coinSound with
      feeNonneg := le_rfl }
  refine sound.setCoin found (sideOf type) claimed [_] bridge.holdings ?_ fun token => ?_
  · intro payout sent
    rw [mem_singleton.mp sent]
    exact coinSound.feeNonneg
  · simp only [Coin.owed, pending_cons, pending_nil, worth_zero]
    omega

theorem sound_of_setActive {isactive : Bool} {message : String} (sound : bridge.Sound)
    (ran : setActive actors trade maker isactive message bridge = .ok result) : result.Sound := by
  obtain ⟨pair, found, ran⟩ := find_bind ran
  obtain ⟨-, ran⟩ := of_assert ran
  cases ran
  have pairSound := sound.pair _ _ found
  exact sound.replace found ⟨pairSound.type, pairSound.coin, pairSound.fixed⟩ fun token => rfl

theorem checkFixed_bind {next : Unit → Checked α} {value : α}
    (ran : (checkFixed env pair fixed >>= next) = .ok value) :
    (∀ side, 0 ≤ (fixed side).amount ∧ (fixed side).amount < 2 ^ 63) ∧ next () = .ok value := by
  obtain ⟨_, checked, rest⟩ := of_bind ran
  obtain ⟨baseNonneg, baseFits, checked⟩ := checkAsset_bind checked
  obtain ⟨marketNonneg, marketFits, -⟩ := checkAsset_bind checked
  refine ⟨fun side => ?_, rest⟩
  cases side with
  | base => exact ⟨baseNonneg, baseFits⟩
  | market => exact ⟨marketNonneg, marketFits⟩

theorem checkRatio_bind {next : Unit → Checked α} {value : α}
    (ran : (checkRatio ratio >>= next) = .ok value) : next () = .ok value := by
  obtain ⟨_, -, rest⟩ := of_bind ran
  exact rest

theorem sound_of_setfixedfee (sound : bridge.Sound)
    (ran : setfixedfee env actors trade maker fixed bridge = .ok result) : result.Sound := by
  obtain ⟨pair, found, ran⟩ := find_bind ran
  obtain ⟨bounds, ran⟩ := checkFixed_bind ran
  obtain ⟨-, ran⟩ := of_assert ran
  cases ran
  have pairSound := sound.pair _ _ found
  exact sound.replace found ⟨pairSound.type, pairSound.coin, bounds⟩ fun token => rfl

theorem sound_of_setprofee (sound : bridge.Sound)
    (ran : setprofee actors trade maker ratio bridge = .ok result) : result.Sound := by
  obtain ⟨pair, found, ran⟩ := find_bind ran
  obtain ⟨-, ran⟩ := of_assert (checkRatio_bind ran)
  cases ran
  have pairSound := sound.pair _ _ found
  exact sound.replace found ⟨pairSound.type, pairSound.coin, pairSound.fixed⟩ fun token => rfl

theorem sound_of_setprominfee (sound : bridge.Sound)
    (ran : setprominfee env actors trade maker ratio fixed bridge = .ok result) : result.Sound := by
  obtain ⟨pair, found, ran⟩ := find_bind ran
  obtain ⟨bounds, ran⟩ := checkFixed_bind ran
  obtain ⟨-, ran⟩ := of_assert (checkRatio_bind ran)
  cases ran
  have pairSound := sound.pair _ _ found
  exact sound.replace found ⟨pairSound.type, pairSound.coin, bounds⟩ fun token => rfl

theorem sound_of_setweight (sound : bridge.Sound)
    (ran : setweight actors trade maker weight bridge = .ok result) : result.Sound := by
  obtain ⟨pair, found, ran⟩ := find_bind ran
  obtain ⟨-, ran⟩ := of_assert ran
  obtain ⟨-, ran⟩ := of_assert ran
  obtain ⟨-, ran⟩ := of_assert ran
  cases ran
  have pairSound := sound.pair _ _ found
  refine sound.replace found ⟨pairSound.type, fun side => ?_, pairSound.fixed⟩ fun token => rfl
  have coinSound := pairSound.coin side
  exact ⟨coinSound.symbol, coinSound.nonneg, coinSound.fits, coinSound.feeNonneg⟩

/-! ### Exchange -/

theorem TradePair.feeAmount_lt
    (valid : 0 ≤ (pair.fee side).fixed.amount ∧ (pair.fee side).fixed.amount < 2 ^ 63)
    (gross : Nat) : pair.feeAmount side gross < 2 ^ 63 := by
  obtain ⟨nonneg, fits⟩ := valid
  have fixed := toUInt64_of_lt nonneg (by omega)
  have product := toUInt64_lt (gross * (pair.fee side).ratio)
  unfold feeAmount proportionCard
  cases pair.feeType with
  | fixed =>
    show toUInt64 _ < _
    omega
  | proportion =>
    show toUInt64 _ / 10000 < _
    omega
  | proportionMincost =>
    dsimp only
    split_ifs
    · omega
    · omega

/-- The fee is part of an amount in the pool, for otherwise the difference wraps beyond the pool. -/
theorem fee_le_gross {gross fee : Nat} {pool : Int} (covered : gross ≤ pool) (fits : pool < 2 ^ 63)
    (feeFits : fee < 2 ^ 63) (enough : toUInt64 (gross - fee) < toUInt64 pool) : fee ≤ gross := by
  have kept := toUInt64_of_lt (show 0 ≤ pool by omega) (by omega)
  by_contra above
  have wrapped : (toUInt64 (gross - fee) : Int) = gross - fee + 2 ^ 64 := by
    unfold toUInt64
    omega
  omega

theorem Side.other_ne (side : Side) : side.other ≠ side := by
  cases side <;> decide

theorem payoutChain_eq
    (paidChain : type = 1 ∨ type = 2 ∨ (pair.coin .base).chain = (pair.coin .market).chain) :
    (if type = 2 then (pair.coin .base).chain else (pair.coin .market).chain) =
      (pair.coin (sideOf type).other).chain := by
  unfold sideOf
  split_ifs with market base base
  · omega
  · rfl
  · rfl
  · rcases paidChain with one | two | same
    · exact absurd one base
    · exact absurd two market
    · exact same.symm

/-- What a pair pays out and keeps as a fee moves between its fields and to the taker. -/
theorem Bridge.Sound.exchanged (sound : bridge.Sound)
    (found : bridge.pairs.lookup (maker, trade) = some pair) (paid : Side)
    {recvAsset feeAsset deposited part rest fees : Asset} (positive : 0 ≤ convert.amount)
    (symbol : convert.symbol = (pair.coin paid).amount.symbol) (recvNonneg : 0 ≤ recvAsset.amount)
    (feeNonneg : 0 ≤ feeAsset.amount)
    (covered : recvAsset.amount + feeAsset.amount ≤ (pair.coin paid.other).amount.amount)
    (added : env.add (pair.coin paid).amount convert = .ok deposited)
    (taken : env.sub (pair.coin paid.other).amount recvAsset = .ok part)
    (feeTaken : env.sub part feeAsset = .ok rest)
    (feeAdded : env.add (pair.coin paid.other).feeAmount feeAsset = .ok fees) :
    Bridge.Sound ⟨bridge.pairs.insert (maker, trade)
        ((pair.setCoin paid { pair.coin paid with amount := deposited }).setCoin paid.other
          { pair.coin paid.other with amount := rest, feeAmount := fees }),
      (bridge.receive (pair.coin paid).chain convert).holdings,
      bridge.inline ++ [⟨(pair.coin paid.other).chain, recv, recvAsset, memo⟩]⟩ := by
  have pairSound := sound.pair _ _ found
  have paidSound := pairSound.coin paid
  have poolSound := pairSound.coin paid.other
  obtain ⟨rfl, -, -, depositedFits⟩ := eq_of_add added
  obtain ⟨rfl, recvSymbol, -, -⟩ := eq_of_sub taken
  obtain ⟨rfl, feeSymbol, -, restFits⟩ := eq_of_sub feeTaken
  obtain ⟨rfl, feeSymbol', -, -⟩ := eq_of_add feeAdded
  have grown : Coin.Sound { pair.coin paid with
      amount := ⟨(pair.coin paid).amount.amount + convert.amount, (pair.coin paid).amount.symbol⟩ } :=
    { paidSound with
      nonneg := add_nonneg paidSound.nonneg positive
      fits := depositedFits }
  have drained : Coin.Sound { pair.coin paid.other with
      amount := ⟨(pair.coin paid.other).amount.amount - recvAsset.amount - feeAsset.amount,
        (pair.coin paid.other).amount.symbol⟩
      feeAmount := ⟨(pair.coin paid.other).feeAmount.amount + feeAsset.amount,
        (pair.coin paid.other).feeAmount.symbol⟩ } :=
    { poolSound with
      nonneg := by
        show 0 ≤ (pair.coin paid.other).amount.amount - recvAsset.amount - feeAsset.amount
        omega
      fits := restFits
      feeNonneg := add_nonneg poolSound.feeNonneg feeNonneg }
  apply sound.insert _ _ _ ((pairSound.setCoin grown).setCoin drained)
  · intro payout sent
    rw [mem_singleton.mp sent]
    exact recvNonneg
  · intro token
    have kept (coin : Coin) : (pair.setCoin paid coin).coin paid.other = pair.coin paid.other :=
      update_of_ne paid.other_ne _ _
    have deposit := worth_add symbol (pair.coin paid).chain token
    have payment := worth_sub recvSymbol (pair.coin paid.other).chain token
    have feePayment := worth_sub feeSymbol (pair.coin paid.other).chain token
    have feeDeposit := worth_add feeSymbol' (pair.coin paid.other).chain token
    rw [measureAt_of_some found, owed_setCoin, kept, owed_setCoin,
      holdings_receive, pending_cons, pending_nil]
    simp only [Coin.owed, deposit, feeDeposit]
    dsimp only at feePayment
    omega

theorem sound_of_exchange (sound : bridge.Sound)
    (permitted : Covered bridge (.exchange actors trade maker recv coinChain convert type))
    (ran : exchange env actors trade maker recv coinChain convert type bridge = .ok result) :
    result.Sound := by
  obtain ⟨pair, found, ran⟩ := find_bind ran
  obtain ⟨-, ran⟩ := of_assert ran
  obtain ⟨positive, -, ran⟩ := checkAsset_bind ran
  obtain ⟨symbol, ran⟩ := of_assert ran
  obtain ⟨chain, ran⟩ := of_assert ran
  obtain ⟨enough, ran⟩ := of_assert ran
  obtain ⟨recvAsset, recvMade, ran⟩ := of_bind ran
  obtain ⟨feeAsset, feeMade, ran⟩ := of_bind ran
  obtain ⟨deposited, added, ran⟩ := of_bind ran
  obtain ⟨part, taken, ran⟩ := of_bind ran
  obtain ⟨rest, feeTaken, ran⟩ := of_bind ran
  obtain ⟨fees, feeAdded, ran⟩ := of_bind ran
  cases sendTransferAction_bind ran
  obtain ⟨covered, paidChain⟩ := permitted pair found
  have pairSound := sound.pair _ _ found
  have fits := (pairSound.coin (sideOf type).other).fits
  have ratio : pair.grossAmount env (sideOf type) convert.amount =
      toUInt64 (convert.amount * (pair.coin (sideOf type).other).weight) /
        (pair.coin (sideOf type)).weight := by
    unfold grossAmount
    rw [pairSound.type]
  rw [← ratio] at covered
  generalize pair.grossAmount env (sideOf type) convert.amount = gross at covered enough recvMade feeMade
  have feeFits := feeAmount_lt (pairSound.fixed (sideOf type).other) gross
  generalize pair.feeAmount (sideOf type).other gross = fee at enough recvMade feeMade feeFits
  have feeLe := fee_le_gross covered fits feeFits enough
  have recvAmount : toInt64 (toUInt64 (gross - fee)) = gross - fee := by
    rw [toUInt64_of_lt (by omega) (by omega), toInt64_of_lt (by omega) (by omega)]
  have feeAmount : toInt64 fee = fee := toInt64_of_lt (by omega) (by omega)
  have recvEq := eq_of_asset recvMade
  have feeEq := eq_of_asset feeMade
  rw [recvAmount] at recvEq
  rw [feeAmount] at feeEq
  rw [chain, payoutChain_eq paidChain]
  apply sound.exchanged found (sideOf type) positive symbol _ _ _ added taken feeTaken feeAdded
  · rw [recvEq]
    exact sub_nonneg.mpr (Int.ofNat_le.mpr feeLe)
  · rw [feeEq]
    exact Int.natCast_nonneg fee
  · rw [recvEq, feeEq]
    show (gross : Int) - fee + fee ≤ _
    omega

theorem returnCoins_bind {next : List Payout → Checked α} {value : α} (nonneg : 0 ≤ quantity.amount)
    (ran : (returnCoins env chain recv quantity memo >>= next) = .ok value) :
    ∃ payouts, (∀ payout ∈ payouts, 0 ≤ payout.quantity.amount) ∧
      (∀ token, pending payouts token = worth chain quantity token) ∧ next payouts = .ok value := by
  obtain ⟨payouts, returned, rest⟩ := of_bind ran
  unfold returnCoins at returned
  split_ifs at returned with positive
  · cases sendTransferAction_bind returned
    refine ⟨_, fun payout sent => ?_, fun token => add_zero _, rest⟩
    rw [mem_singleton.mp sent]
    exact nonneg
  · cases returned
    have empty : quantity.amount = 0 := le_antisymm (not_lt.mp positive) nonneg
    refine ⟨[], nofun, fun token => ?_, rest⟩
    unfold worth
    rw [empty, ite_self, pending_nil]

theorem sound_of_removemarket {recv : Side → AccountName} (sound : bridge.Sound)
    (ran : removemarket env actors trade maker recv bridge = .ok result) : result.Sound := by
  obtain ⟨pair, found, ran⟩ := find_bind ran
  have coinSound := (sound.pair _ _ found).coin
  obtain ⟨baseAmount, baseNonneg, base, ran⟩ := returnCoins_bind (coinSound .base).nonneg ran
  obtain ⟨marketAmount, marketNonneg, market, ran⟩ :=
    returnCoins_bind (coinSound .market).nonneg ran
  obtain ⟨baseFee, baseFeeNonneg, baseFees, ran⟩ := returnCoins_bind (coinSound .base).feeNonneg ran
  obtain ⟨marketFee, marketFeeNonneg, marketFees, ran⟩ :=
    returnCoins_bind (coinSound .market).feeNonneg ran
  obtain ⟨_, -, ran⟩ := of_bind ran
  cases ran
  refine ⟨fun key row present => ?_, fun payout sent => ?_, fun token => ?_⟩
  · by_cases same : key = (maker, trade)
    · subst same
      have erased := AList.lookup_erase (maker, trade) bridge.pairs
      rw [show AList.lookup (maker, trade) (bridge.pairs.erase (maker, trade)) = some row from
        present] at erased
      cases erased
    · exact sound.pair key row ((AList.lookup_erase_ne same).symm.trans present)
  · rcases mem_append.mp sent with earlier | sent
    · exact sound.payout payout earlier
    rcases mem_append.mp sent with sent | last
    · rcases mem_append.mp sent with sent | third
      · rcases mem_append.mp sent with first | second
        · exact baseNonneg payout first
        · exact marketNonneg payout second
      · exact baseFeeNonneg payout third
    · exact marketFeeNonneg payout last
  · have covered := sound.covered token
    show total (fun pair => pair.owed token) (bridge.pairs.erase (maker, trade)) +
      pending (bridge.inline ++ (baseAmount ++ marketAmount ++ baseFee ++ marketFee)) token ≤
        bridge.holdings token
    simp only [total_erase, measureAt_of_some found, pending_append, base, market, baseFees,
      marketFees, TradePair.owed, Coin.owed]
    unfold Bridge.owed TradePair.owed Coin.owed at covered
    omega

theorem sound_of_executeTransfer (sound : bridge.Sound)
    (ran : executeTransfer env bridge = .ok result) : result.Sound := by
  unfold executeTransfer at ran
  split at ran
  · cases ran
  next payout rest inline =>
    obtain ⟨-, ran⟩ := of_assert ran
    obtain ⟨-, ran⟩ := of_assert ran
    obtain ⟨-, ran⟩ := of_assert ran
    cases ran
    refine ⟨sound.pair, fun other sent => ?_, fun token => ?_⟩
    · apply sound.payout
      rw [inline]
      exact mem_cons_of_mem _ sent
    · have covered := sound.covered token
      rw [inline, pending_cons] at covered
      show bridge.owed token + pending rest token ≤ _
      by_cases same : (payout.chain, payout.quantity.symbol) = token
      · subst same
        simp only [worth, if_pos] at covered
        simp only [update_self]
        omega
      · simp only [worth, if_neg same] at covered
        simp only [update_of_ne (Ne.symm same)]
        omega

/-! ### Runs -/

theorem sound_of_step {call : Call} (sound : bridge.Sound) (permitted : Covered bridge call)
    (ran : step env bridge call = .ok result) : result.Sound := by
  cases call with
  | addmarket => exact sound_of_addmarket sound ran
  | addmortgage => exact sound_of_addmortgage sound ran
  | claimmortgage => exact sound_of_claimmortgage sound ran
  | frozenmarket => exact sound_of_setActive sound ran
  | trawmarket => exact sound_of_setActive sound ran
  | setfixedfee => exact sound_of_setfixedfee sound ran
  | setprofee => exact sound_of_setprofee sound ran
  | setprominfee => exact sound_of_setprominfee sound ran
  | setweight => exact sound_of_setweight sound ran
  | exchange => exact sound_of_exchange sound permitted ran
  | removemarket => exact sound_of_removemarket sound ran
  | claimfee => exact sound_of_claimfee sound ran
  | executeTransfer => exact sound_of_executeTransfer sound ran

/-- As long as every exchange is covered before the fee, the contract can pay. -/
theorem solvent_of_run {holdings : Token → Int} (nonneg : ∀ token, 0 ≤ holdings token)
    {visited : List Bridge} {last : Bridge}
    (run : Run (Taken (step env) Covered) { holdings } visited last) : last.Solvent := by
  have initial : Bridge.Sound { holdings } :=
    { pair := nofun
      payout := nofun
      covered := nonneg }
  apply Bridge.Sound.solvent
  apply Taken.invariant initial _ run
  intro state call next sound permitted stepped
  exact sound_of_step sound permitted stepped

/-- A market of the maker 5 with the coins 4 on chain 7 and 260 on chain 8, at the ratio 1, where 10
of the market coin are in the pool and an exchange costs 5. -/
def openMarket : List Call :=
  [.addmarket [5] 6 5 .equalRatio (fun | .base => 7 | .market => 8)
      (fun | .base => ⟨0, 4⟩ | .market => ⟨0, 260⟩) (fun _ => 1),
    .addmortgage [1] 6 5 8 ⟨10, 260⟩ 2,
    .frozenmarket [5] 6 5,
    .setfixedfee [5] 6 5 (fun | .base => ⟨0, 4⟩ | .market => ⟨5, 260⟩),
    .trawmarket [5] 6 5]

/-- The account 9 pays 8 of the base coin and gets 3 of the market coin. -/
theorem solvent_of_run_exchange :
    ∃ visited last, Run (Taken (step .bounded) Covered) {} visited last ∧
      last.holdings (8, 260) = 7 ∧ last.Solvent := by
  obtain ⟨visited, last, run, held⟩ := @exists_run_of_replay _ _ _ (step .bounded) Covered {} _
    (openMarket ++ [.exchange [1] 6 5 9 7 ⟨8, 4⟩ 1, .executeTransfer])
    (fun last => last.holdings (8, 260) = 7) _ (by decide +kernel)
  exact ⟨visited, last, run, held, solvent_of_run (fun _ => le_rfl) run⟩

/-- The account 9 pays 14 of the base coin and gets 9 of the market coin. The pool pays the fee as
well and is at -4. -/
theorem pool_negative_after_fee :
    ∃ visited last, Run (Taken (step .bounded) fun _ _ => True) {} visited last ∧
      last.inline = [] ∧ ¬ last.Solvent := by
  obtain ⟨visited, last, run, executed, pool⟩ :=
    @exists_run_of_replay _ _ _ (step .bounded) (fun _ _ => True) {} _
      (openMarket ++ [.exchange [1] 6 5 9 7 ⟨14, 4⟩ 1, .executeTransfer])
      (fun last => last.inline = [] ∧
        (last.pairs.lookup (5, 6)).map (fun pair => (pair.coin .market).amount.amount) = some (-4))
      _ (by decide +kernel)
  refine ⟨visited, last, run, executed, fun solvent => ?_⟩
  obtain ⟨pair, found, negative⟩ := Option.map_eq_some_iff.mp pool
  have nonneg := (solvent.nonneg _ pair found .market).1
  omega

end CodexRelay.Contracts.SysBridge
