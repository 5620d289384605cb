import CodexRelay.Contracts.SysBridge.Solvency

/-!
Contract: what an exchange pays.

`exchange` multiplies in `uint64_t`, for the value and for the fee. Where both products are below
2^64, the receiver is paid the exact value minus the exact fee. A product that wraps only gets
smaller, so converting back never returns more than was put in.

Owns the exact value and fee of an amount, `Receives`, when an exchange pays exactly, and that
converting back returns no more than was put in.
-/

namespace CodexRelay.Contracts.SysBridge

open Chain Library List

variable {env : Environment} {pair : TradePair} {paid : Side} {amount received : Int} {weight : Nat}

namespace TradePair

/-- What an amount of the coin of a side is worth in the other coin. -/
def exactValue (pair : TradePair) (paid : Side) (amount : Int) : Int :=
  amount * (pair.coin paid.other).weight / (pair.coin paid).weight

def exactFee (pair : TradePair) (side : Side) (value : Int) : Int :=
  let fixed := (pair.fee side).fixed.amount
  let proportion := value * (pair.fee side).ratio / proportionCard
  match pair.feeType with
  | .fixed => fixed
  | .proportion => proportion
  | .proportionMincost => max fixed proportion

/-- An equal-ratio pair with weights and fees that the actions accept. A weight is a `uint64_t`. -/
structure Regular (pair : TradePair) : Prop where
  type : pair.type = .equalRatio
  weight : ∀ side, 0 < (pair.coin side).weight
  width : ∀ side, (pair.coin side).weight < 2 ^ 64
  fixed : ∀ side, 0 ≤ (pair.fee side).fixed.amount ∧ (pair.fee side).fixed.amount < 2 ^ 63

/-- The product of a proportional fee fits, or its part of the value is below the fixed fee. -/
def FeeFits (pair : TradePair) (side : Side) (value : Int) : Prop :=
  match pair.feeType with
  | .fixed => True
  | .proportion => value * (pair.fee side).ratio < 2 ^ 64
  | .proportionMincost => value * (pair.fee side).ratio < 2 ^ 64 ∨
    value * (pair.fee side).ratio / proportionCard ≤ (pair.fee side).fixed.amount

/-- The products of an exchange fit. -/
def Fits (pair : TradePair) (paid : Side) (amount : Int) : Prop :=
  amount * (pair.coin paid.other).weight < 2 ^ 64 ∧
    pair.FeeFits paid.other (pair.exactValue paid amount)

/-- The product of the value wraps, and a proportional fee, computed from the wrapped value, is too
low by just as much. -/
def Cancels (env : Environment) (pair : TradePair) (paid : Side) (amount : Int) : Prop :=
  2 ^ 64 ≤ amount * (pair.coin paid.other).weight ∧ pair.feeType ≠ .fixed ∧
    pair.exactValue paid amount - pair.grossAmount env paid amount =
      pair.exactFee paid.other (pair.exactValue paid amount) -
        pair.feeAmount paid.other (pair.grossAmount env paid amount)

end TradePair

/-- The host executes the transfer, at some point after the action. -/
def Payout.Executed (env : Environment) (payout : Payout) : Prop :=
  ∃ before after, before.inline.head? = some payout ∧ executeTransfer env before = .ok after

/-- An exchange of an amount of the coin of a side, whose transfers are executed. -/
def Receives (env : Environment) (pair : TradePair) (paid : Side) (amount received : Int) : Prop :=
  ∃ actors trade maker recv coinChain convert type, ∃ bridge result : Bridge, ∃ sent,
    bridge.pairs.lookup (maker, trade) = some pair ∧ sideOf type = paid ∧ convert.amount = amount ∧
    exchange env actors trade maker recv coinChain convert type bridge = .ok result ∧
    result.inline = bridge.inline ++ sent ∧ (∀ payout ∈ sent, payout.Executed env) ∧
    ((sent.filter (·.recv = recv)).map (·.quantity.amount)).sum = received

theorem Payout.Executed.positive {payout : Payout} (executed : payout.Executed env) :
    0 < payout.quantity.amount := by
  obtain ⟨before, after, head, ran⟩ := executed
  unfold executeTransfer at ran
  split at ran
  · cases ran
  next first rest inline =>
    rw [inline] at head
    cases head
    obtain ⟨-, ran⟩ := of_assert ran
    exact (of_assert ran).1

/-- A difference that wraps is not positive as an `int64_t`. -/
theorem eq_of_wrapped_pos {gross fee : Nat} (grossFits : gross < 2 ^ 64) (feeFits : fee < 2 ^ 63)
    (positive : 0 < toInt64 (toUInt64 (gross - fee))) :
    toInt64 (toUInt64 (gross - fee)) = gross - fee := by
  unfold toInt64 toUInt64 at *
  rw [Int.bmod_def] at *
  omega

namespace TradePair

section

variable (regular : pair.Regular)

include regular

section

variable (accepted : Receives env pair paid amount received)

include accepted

theorem Regular.received_eq :
    0 ≤ amount ∧ received = pair.grossAmount env paid amount -
      pair.feeAmount paid.other (pair.grossAmount env paid amount) := by
  obtain ⟨actors, trade, maker, recv, coinChain, convert, type, bridge, result, sent, found, rfl,
    rfl, ran, inline, executed, rfl⟩ := accepted
  obtain ⟨_, found', ran⟩ := find_bind ran
  cases found.symm.trans found'
  obtain ⟨-, ran⟩ := of_assert ran
  obtain ⟨nonneg, -, ran⟩ := checkAsset_bind ran
  obtain ⟨-, ran⟩ := of_assert ran
  obtain ⟨-, ran⟩ := of_assert ran
  obtain ⟨-, ran⟩ := of_assert ran
  obtain ⟨recvAsset, made, ran⟩ := of_bind ran
  obtain ⟨_, -, ran⟩ := of_bind ran
  obtain ⟨_, -, ran⟩ := of_bind ran
  obtain ⟨_, -, ran⟩ := of_bind ran
  obtain ⟨_, -, ran⟩ := of_bind ran
  obtain ⟨_, -, ran⟩ := of_bind ran
  cases sendTransferAction_bind ran
  cases append_cancel_left inline
  have quantity := congrArg Asset.amount (AssetLib.eq_of_asset made)
  have positive := (executed _ mem_cons_self).positive
  have grossFits : pair.grossAmount env (sideOf type) convert.amount < 2 ^ 64 := by
    unfold grossAmount
    rw [regular.type]
    exact (Nat.div_le_self _ _).trans_lt (toUInt64_lt _)
  generalize pair.grossAmount env (sideOf type) convert.amount = gross at *
  have feeFits := feeAmount_lt (regular.fixed (sideOf type).other) gross
  dsimp only at quantity positive
  rw [quantity] at positive
  refine ⟨nonneg, ?_⟩
  rw [← eq_of_wrapped_pos grossFits feeFits positive, ← quantity]
  simp

theorem Regular.received_le : received ≤ pair.exactValue paid amount := by
  obtain ⟨nonneg, rfl⟩ := regular.received_eq accepted
  have wrapped := toUInt64_le (show (0 : Int) ≤ amount * (pair.coin paid.other).weight by positivity)
  have gross : pair.grossAmount env paid amount ≤ pair.exactValue paid amount := by
    unfold grossAmount exactValue
    rw [regular.type]
    exact Int.ediv_le_ediv (Int.natCast_pos.mpr (regular.weight paid)) wrapped
  omega

end

theorem Regular.gross_eq_iff (nonneg : 0 ≤ amount) :
    (pair.grossAmount env paid amount : Int) = pair.exactValue paid amount ↔
      amount * (pair.coin paid.other).weight < 2 ^ 64 := by
  unfold grossAmount exactValue
  rw [regular.type]
  show ((toUInt64 _ / _ : Nat) : Int) = _ ↔ _
  rw [Int.natCast_ediv]
  exact toUInt64_div_eq_iff (by positivity) (regular.weight paid) (regular.width paid).le

theorem Regular.fee_eq_iff {side : Side} {gross : Nat} :
    (pair.feeAmount side gross : Int) = pair.exactFee side gross ↔ pair.FeeFits side gross := by
  obtain ⟨nonneg, bound⟩ := regular.fixed side
  have fixed := toUInt64_of_lt nonneg (by omega)
  have positive : (0 : Int) ≤ gross * (pair.fee side).ratio := by positivity
  have proportion := toUInt64_div_eq_iff positive (show 0 < proportionCard by decide) (by decide)
  have below := toUInt64_le positive
  unfold feeAmount exactFee FeeFits
  unfold proportionCard at proportion ⊢
  cases pair.feeType with
  | fixed => exact ⟨fun _ => trivial, fun _ => fixed⟩
  | proportion => exact proportion
  | proportionMincost =>
    rw [← proportion]
    dsimp only
    split_ifs <;> omega

end

end TradePair

section

variable (regular : pair.Regular) (accepted : Receives env pair paid amount received)

include regular accepted

/-- An exchange pays the exact value minus the exact fee exactly when the products fit, or the errors
cancel out. -/
theorem receives_exactly_iff :
    received = pair.exactValue paid amount -
        pair.exactFee paid.other (pair.exactValue paid amount) ↔
      pair.Fits paid amount ∨ pair.Cancels env paid amount := by
  obtain ⟨nonneg, paidOut⟩ := regular.received_eq accepted
  have gross := @TradePair.Regular.gross_eq_iff env _ paid _ regular nonneg
  have fee := @TradePair.Regular.fee_eq_iff _ regular paid.other (pair.grossAmount env paid amount)
  unfold TradePair.Fits TradePair.Cancels
  rw [paidOut]
  by_cases fits : amount * (pair.coin paid.other).weight < 2 ^ 64
  · rw [gross.mpr fits] at fee ⊢
    rw [← fee]
    omega
  · have loses : pair.feeType = .fixed →
        (pair.feeAmount paid.other (pair.grossAmount env paid amount) : Int) =
          pair.exactFee paid.other (pair.exactValue paid amount) := by
      intro kind
      refine (fee.mpr ?_).trans ?_
      · rw [TradePair.FeeFits, kind]
        trivial
      · rw [TradePair.exactFee, TradePair.exactFee, kind]
    have differs := mt gross.mp fits
    constructor
    · intro same
      refine .inr ⟨by omega, fun kind => ?_, by omega⟩
      have := loses kind
      omega
    · rintro (⟨small, -⟩ | ⟨-, -, cancels⟩)
      · exact absurd small fits
      · omega

/-- Converting back returns no more than was put in, whatever wraps and whatever the fees are. -/
theorem returned_le {back : TradePair} {returned : Int} (backRegular : back.Regular)
    (same : ∀ side, (back.coin side).weight = (pair.coin side).weight)
    (converted : Receives env back paid.other received returned) : returned ≤ amount := by
  have there := regular.received_le accepted
  have home := backRegular.received_le converted
  have other : paid.other.other = paid := by cases paid <;> rfl
  unfold TradePair.exactValue at there home
  rw [other, same, same] at home
  have paidWeight := Int.natCast_pos.mpr (regular.weight paid)
  have recvWeight := Int.natCast_pos.mpr (regular.weight paid.other)
  calc returned
    _ ≤ received * (pair.coin paid).weight / (pair.coin paid.other).weight := home
    _ ≤ amount * (pair.coin paid.other).weight / (pair.coin paid.other).weight :=
      Int.ediv_le_ediv recvWeight ((Int.le_ediv_iff_mul_le paidWeight).mp there)
    _ = amount := Int.mul_ediv_cancel _ recvWeight.ne'

end

/-- An active market at the ratio 1 that holds 10^14 of the market coin and takes no fee. -/
def evenMarket (weight : Nat) : TradePair :=
  (TradePair.opened .bounded 6 5 .equalRatio (fun | .base => 7 | .market => 8)
    (fun | .base => ⟨0, 4⟩ | .market => ⟨0, 260⟩) fun _ => weight).setCoin .market
      ⟨8, ⟨10 ^ 14, 260⟩, weight, ⟨0, 260⟩⟩

theorem regular_evenMarket (positive : 0 < weight) (small : weight < 2 ^ 64) :
    (evenMarket weight).Regular where
  type := rfl
  weight side := by cases side <;> exact positive
  width side := by cases side <;> exact small
  fixed side := by cases side <;> exact ⟨le_rfl, by positivity⟩

theorem receives_evenMarket (positive : 0 < received)
    (computed : ∃ result, exchange .bounded [1] 6 5 9 7 ⟨amount, 4⟩ 1
        { pairs := AList.singleton (5, 6) (evenMarket weight) } = .ok result ∧
      result.inline = [⟨8, 9, ⟨received, 260⟩, "exchange market transfer coin market"⟩]) :
    Receives .bounded (evenMarket weight) .base amount received := by
  obtain ⟨result, ran, inline⟩ := computed
  refine ⟨[1], 6, 5, 9, 7, ⟨amount, 4⟩, 1, _, result, _, rfl, rfl, rfl, ran, inline, ?_, by simp⟩
  intro payout sent
  rw [mem_singleton.mp sent]
  refine ⟨{ holdings := fun _ => received, inline := [_] },
    { holdings := Function.update (fun _ => received) (8, 260) (received - received) }, rfl, ?_⟩
  simp [executeTransfer, eosioAssert, eosAssert, positive, Environment.bounded]
  rfl

end CodexRelay.Contracts.SysBridge
