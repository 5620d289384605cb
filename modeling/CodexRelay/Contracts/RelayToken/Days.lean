import CodexRelay.Contracts.RelayToken.Ages

/-!
Contract: closing a day and assigning its rewards keep the cover.

The 360th record and every later one evicts the first record of the currency. A holder that has not
settled the evicted record takes its mineage from the next one, where it was never counted.

Owns:
- `Evictable`, that nobody has anything in the record that is evicted, and the step of `settlemine`;
- `Rewardable`, that no product of `rewardmine` overflows, and that then no pool is negative.
-/

namespace CodexRelay.Contracts.RelayToken

open Chain Library List Function

variable {env : Environment} {tables result : Tables} {actors : List AccountName} {quantity : Asset}

variable {records : List RewardMineInfo} {rewards : List RewardCurrency} {sum : Nat}

variable {currency : Currency} {reward : RewardCurrency}

/-! ### Closing the day -/

/-- Nobody has anything in the record that `settlemine` would evict. -/
def Evictable (tables : Tables) (reward : RewardCurrency) : Prop :=
  ∀ stat ∈ tables.stats.lookup (currencyOf reward.chain reward.supply),
    tables.recordNow stat.rewardScope = none → stat.rewardSize = coinRewardRecordSize →
      ∀ first ∈ (tables.rewardMine stat.rewardScope).head?, ∀ entry ∈ tables.accounts.entries,
        currencyOf entry.2.chain entry.2.balance = currencyOf reward.chain reward.supply →
          first.totalMineage ≤ 0 ∨ first.rewardBlockNum ≤ entry.2.mineageUpdateHeight ∨
            entry.2.balance.amount = 0 ∧ entry.2.mineage = 0
deriving Decidable

/-- The records of a currency after its day is closed, with the row of the currency. -/
theorem Ages.setRecords {stat changed : CurrencyStats} (ages : Ages tables)
    (found : tables.stats.lookup currency = some stat)
    (used : stat.rewardScope < tables.rewards.length)
    (takesPart : tables.findReward currency ≠ none)
    (covered : Covered Counted tables.blockNum (changed.reserve tables.blockNum)
      (holdersOf tables.accounts currency) (records.map RewardMineInfo.period))
    (valid : changed.Valid tables.blockNum)
    (recorded : Recorded tables stat.rewardScope records)
    (scope : changed.rewardScope = stat.rewardScope) :
    Ages ((tables.setRecords stat.rewardScope records).setStat currency changed) := by
  have apart (other : Currency) (value : CurrencyStats) (different : other ≠ currency)
      (present : tables.stats.lookup other = some value) :
      value.rewardScope ≠ stat.rewardScope := by
    intro same
    have few := ages.few
    rcases ages.distinct other currency value stat present found same with clash | unused
    · exact different clash
    · omega
  have all := (forall_update_iff tables.rewardMine (Recorded tables)).mpr
    ⟨recorded, fun target _ => ages.recorded target⟩
  exact
    { ages with
      stat := forall_lookup_insert valid fun other value _ => ages.stat other value
      record := fun target => (all target).1
      sorted := fun target => (all target).2
      covered := fun other value present => by
        show Covered _ _ (value.reserve tables.blockNum) _
          ((update tables.rewardMine stat.rewardScope records value.rewardScope).map _)
        rcases lookup_insert_cases present with ⟨rfl, rfl⟩ | ⟨different, kept⟩
        · rwa [scope, update_self]
        · rw [update_of_ne (apart other value different kept)]
          exact ages.covered other value kept
      fresh := fun target large => by
        show update tables.rewardMine stat.rewardScope records target = []
        rw [update_of_ne (lt_of_lt_of_le used large).ne']
        exact ages.fresh target large
      backed := fun reward mem => lookup_insert_ne_none (ages.backed reward mem)
      listed := forall_lookup_insert (.inr ⟨scope ▸ used, takesPart⟩) fun other value _ =>
        ages.listed other value
      distinct := ages.distinct_insert fun other value different present =>
        scope ▸ apart other value different present }

theorem evict_cases {rewardSize : Nat} {left : List RewardMineInfo}
    (evicted : evict env rewardSize records = .ok left) :
    left = records ∨ rewardSize = coinRewardRecordSize ∧ ∃ first second rest,
      records = first :: second :: rest ∧
        left = { second with rewardPool := env.coreAsset 0 } :: rest := by
  unfold evict at evicted
  split_ifs at evicted with full
  · split at evicted
    next first second rest =>
      cases evicted
      exact .inr ⟨full, first, second, rest, rfl, rfl⟩
    · cases evicted
  · cases evicted
    exact .inl rfl

theorem CurrencyStats.Valid.closing {stat : CurrencyStats} {now : Nat} (valid : stat.Valid now)
    (env : Environment) (block : now < 2 ^ 32) :
    (stat.closing env now).period = { close := now, total := stat.reserve now } ∧
      (stat.closing env now).Valid now := by
  have past := valid.past
  have mineage := valid.mineage
  obtain ⟨product, -, fits⟩ := valid.reserve_bounds block
  have reserve : stat.reserve now = stat.totalMineage +
    stat.supply.amount * (now - stat.totalMineageUpdateHeight) := rfl
  have total : (stat.closing env now).totalMineage = stat.reserve now := by
    have inner : toInt128 (stat.supply.amount * (now - stat.totalMineageUpdateHeight)) =
      stat.supply.amount * (now - stat.totalMineageUpdateHeight) :=
        toInt128_of_lt (by omega) (by omega)
    unfold CurrencyStats.closing
    dsimp only
    rw [toUInt32_sub past block, inner, ← reserve, toInt128_of_lt (by omega) fits]
  constructor
  · unfold RewardMineInfo.period
    rw [total]
    rfl
  · refine ⟨le_rfl, ?_, ?_, le_rfl, show (0 : Int) < 2 ^ 63 by decide⟩
    · rw [total]
      exact add_nonneg mineage product
    · rw [total]
      exact fits

section

variable (ages : Ages tables) (early : ∀ key row, tables.accounts.lookup key = some row →
  row.mineageUpdateHeight < tables.blockNum)

include ages early

theorem Ages.closed {stat : CurrencyStats} (found : tables.stats.lookup currency = some stat)
    (missing : tables.recordNow stat.rewardScope = none)
    (settled : stat.rewardSize = coinRewardRecordSize →
      ∀ first ∈ (tables.rewardMine stat.rewardScope).head?,
        ∀ holder ∈ holdersOf tables.accounts currency,
          holder.Idle ∨ ¬ holder.Owes Counted first.period)
    (evicted : evict env stat.rewardSize (tables.rewardMine stat.rewardScope ++
      [stat.closing env tables.blockNum]) = .ok records) :
    Covered Counted tables.blockNum 0 (holdersOf tables.accounts currency)
        (records.map RewardMineInfo.period) ∧
      Recorded tables stat.rewardScope records ∧
      ∃ record ∈ records, record.rewardBlockNum = tables.blockNum := by
  obtain ⟨period, closingValid⟩ := (ages.stat _ _ found).closing env ages.block
  have past : ∀ record ∈ tables.rewardMine stat.rewardScope,
      record.rewardBlockNum < tables.blockNum := by
    intro record mem
    have different := find?_eq_none.mp missing record mem
    exact lt_of_le_of_ne (ages.record _ record mem).1.past fun same => different (decide_eq_true same)
  -- the records with the new one, before the first is evicted
  have covered : Covered Counted tables.blockNum 0 (holdersOf tables.accounts currency)
      ((tables.rewardMine stat.rewardScope ++ [stat.closing env tables.blockNum]).map
        RewardMineInfo.period) := by
    rw [map_append, map_singleton, period]
    apply (ages.covered _ _ found).close counted_of_pos
    · intro holder mem
      refine ⟨ages.valid holder mem, ?_⟩
      obtain ⟨key, row, listed, -, rfl⟩ := mem_holdersOf.mp mem
      exact early key row listed
    · intro closed mem
      obtain ⟨record, listed, rfl⟩ := mem_map.mp mem
      exact past record listed
  have recorded : Recorded tables stat.rewardScope
      (tables.rewardMine stat.rewardScope ++ [stat.closing env tables.blockNum]) := by
    refine ⟨fun record mem => ?_, pairwise_append.mpr
      ⟨ages.sorted _, pairwise_singleton _ _, fun left listed right new => ?_⟩⟩
    · rcases mem_append.mp mem with old | new
      · exact ages.record _ record old
      · rw [mem_singleton.mp new]
        refine ⟨closingValid, ?_⟩
        show _ + (0 : Int) ≤ _
        rw [add_zero]
        exact ages.credited _ _
    · rw [mem_singleton.mp new]
      exact past left listed
  have new : ∃ record ∈ tables.rewardMine stat.rewardScope ++ [stat.closing env tables.blockNum],
      record.rewardBlockNum = tables.blockNum :=
    ⟨stat.closing env tables.blockNum, mem_append_right _ mem_cons_self, rfl⟩
  rcases evict_cases evicted with rfl | ⟨full, first, second, rest, split, rfl⟩
  · exact ⟨covered, recorded, new⟩
  · obtain ⟨tail, before⟩ : ∃ tail, tables.rewardMine stat.rewardScope = first :: tail := by
      cases before : tables.rewardMine stat.rewardScope with
      | nil =>
        rw [before] at split
        cases split
      | cons head tail =>
        rw [before] at split
        exact ⟨tail, by rw [(List.cons.inj split).1]⟩
    rw [split] at covered recorded new
    obtain ⟨valid, sorted⟩ := recorded
    refine ⟨?_, ⟨fun record mem => ?_, ?_⟩, ?_⟩
    · apply covered.drop
      apply settled full first
      rw [before]
      rfl
    · rcases mem_cons.mp mem with rfl | kept
      · obtain ⟨secondValid, -⟩ := valid second (mem_cons_of_mem _ mem_cons_self)
        refine ⟨{ secondValid with pool := le_rfl, fits := show (0 : Int) < 2 ^ 63 by decide }, ?_⟩
        show _ + (0 : Int) ≤ _
        rw [add_zero]
        exact ages.credited _ _
      · exact valid record (mem_cons_of_mem _ (mem_cons_of_mem _ kept))
    · have rest := pairwise_cons.mp (pairwise_cons.mp sorted).2
      exact pairwise_cons.mpr ⟨rest.1, rest.2⟩
    · obtain ⟨record, mem, now⟩ := new
      rcases mem_cons.mp mem with rfl | mem
      · have earlier := past record (by rw [before]; exact mem_cons_self)
        omega
      · rcases mem_cons.mp mem with rfl | kept
        · exact ⟨_, mem_cons_self, now⟩
        · exact ⟨record, mem_cons_of_mem _ kept, now⟩

theorem Ages.settleCurrency (listed : reward ∈ tables.rewards) (evictable : Evictable tables reward)
    (ran : settleCurrency env reward tables = .ok result) :
    Ages result ∧ result.accounts = tables.accounts ∧ result.blockNum = tables.blockNum ∧
      result.rewards = tables.rewards ∧
      ∀ other, Evictable tables other → Evictable result other := by
  unfold RelayToken.settleCurrency at ran
  cases found : tables.stats.lookup (currencyOf reward.chain reward.supply) with
  | none => exact absurd found (ages.backed reward listed)
  | some stat =>
    rw [found] at ran
    obtain ⟨missing, ran⟩ := of_assert ran
    obtain ⟨records, evicted, ran⟩ := of_bind ran
    cases ran
    have takesPart : tables.findReward (currencyOf reward.chain reward.supply) ≠ none := by
      intro absent
      exact find?_eq_none.mp absent reward listed (decide_eq_true rfl)
    have used : stat.rewardScope < tables.rewards.length := by
      rcases ages.listed _ _ found with ⟨-, absent⟩ | ⟨used, -⟩
      · exact absurd absent takesPart
      · exact used
    obtain ⟨covered, recorded, record, kept, now⟩ := ages.closed early found missing
      (fun full first head holder mem => by
        obtain ⟨key, row, present, same, rfl⟩ := mem_holdersOf.mp mem
        rcases evictable stat found missing full first head ⟨key, row⟩
          (AList.mem_lookup_iff.mp present) same with empty | settled | idle
        · exact .inr fun owes => absurd owes.2 (not_lt.mpr empty)
        · exact .inr (Holder.not_owes_of_le settled)
        · exact .inl idle) evicted
    have statValid := ages.stat _ _ found
    refine ⟨ages.setRecords found used takesPart ?_ ?_ recorded rfl, rfl, rfl, rfl, ?_⟩
    · show Covered _ _ (0 + stat.supply.amount * (tables.blockNum - tables.blockNum)) _ _
      rwa [sub_self, mul_zero, add_zero]
    · exact ⟨le_rfl, statValid.supply, statValid.fits, le_rfl, by positivity⟩
    · intro other before value present absent full
      change (update tables.rewardMine stat.rewardScope records
        value.rewardScope).find? _ = none at absent
      -- a currency with these records has one for this block
      have different : value.rewardScope ≠ stat.rewardScope := by
        intro same
        rw [same, update_self] at absent
        exact find?_eq_none.mp absent record kept (decide_eq_true now)
      have unchanged : tables.stats.lookup (currencyOf other.chain other.supply) = some value := by
        by_cases same : currencyOf other.chain other.supply = currencyOf reward.chain reward.supply
        · rw [same] at present
          cases (AList.lookup_insert tables.stats).symm.trans present
          exact absurd rfl different
        · exact (AList.lookup_insert_ne same).symm.trans present
      show ∀ first ∈ (update tables.rewardMine stat.rewardScope records
        value.rewardScope).head?, _
      rw [update_of_ne different] at absent ⊢
      exact before value unchanged absent full

/-- `settlemine` goes through the currencies one after the other. -/
theorem Ages.settleCurrencies (listed : ∀ reward ∈ rewards, reward ∈ tables.rewards)
    (evictable : ∀ reward ∈ rewards, Evictable tables reward)
    (ran : settleCurrencies env rewards tables = .ok result) : Ages result := by
  induction rewards generalizing tables with
  | nil =>
    cases ran
    exact ages
  | cons reward rewards ih =>
    obtain ⟨middle, first, rest⟩ := of_bind ran
    obtain ⟨middleAges, accounts, block, kept, still⟩ := ages.settleCurrency early
      (listed reward mem_cons_self) (evictable reward mem_cons_self) first
    apply ih middleAges _ _ _ rest
    · rw [accounts, block]
      exact early
    · intro other mem
      rw [kept]
      exact listed other (mem_cons_of_mem _ mem)
    · exact fun other mem => still other (evictable other (mem_cons_of_mem _ mem))

end

/-! ### Assigning rewards -/

/-- What a currency adds to `total_power` in this block. -/
def powerOf (env : Environment) (tables : Tables) (reward : RewardCurrency) : Int :=
  (tables.stats.lookup (currencyOf reward.chain reward.supply)).elim 0 fun stat =>
    power ((tables.recordNow stat.rewardScope).elim env.unset fun record => record.totalMineage)
      (env.avgPrice tables.blockNum stat.chain stat.supply.symbol) stat

theorem powerOf_eq {stat : CurrencyStats} {record : RewardMineInfo}
    (found : tables.stats.lookup (currencyOf reward.chain reward.supply) = some stat)
    (present : tables.recordNow stat.rewardScope = some record) :
    powerOf env tables reward = power record.totalMineage
      (env.avgPrice tables.blockNum stat.chain stat.supply.symbol) stat := by
  unfold powerOf
  rw [found, Option.elim_some, present, Option.elim_some]

/-- The products that `rewardmine` computes for a record fit in their types. -/
def Dividable (price quantity : Int) (stat : CurrencyStats) (record : RewardMineInfo) : Prop :=
  0 ≤ price ∧ 0 < precision (symbolPrecision stat.supply.symbol) ∧
    record.totalMineage * price < 2 ^ 127 ∧
    valued record.totalMineage price stat * stat.coinWeight < 2 ^ 127 ∧
    valued record.totalMineage price stat * quantity < 2 ^ 127
deriving Decidable

/-- The quantity is an amount, the products fit, and so does the sum. -/
def Rewardable (env : Environment) (tables : Tables) (quantity : Asset) : Prop :=
  0 ≤ quantity.amount ∧ quantity.amount < 2 ^ 62 ∧
    (∀ reward ∈ tables.rewards,
      ∀ stat ∈ tables.stats.lookup (currencyOf reward.chain reward.supply),
        ∀ record ∈ tables.recordNow stat.rewardScope,
          Dividable (env.avgPrice tables.blockNum stat.chain stat.supply.symbol) quantity.amount stat
            record) ∧
    (tables.rewards.map (powerOf env tables)).sum < 2 ^ 128
deriving Decidable

section Devide

variable {price amount : Int} {stat : CurrencyStats} {record : RewardMineInfo}

section

variable (dividable : Dividable price amount stat record) (mineage : 0 ≤ record.totalMineage)

include dividable mineage

theorem Dividable.valued_nonneg : 0 ≤ valued record.totalMineage price stat := by
  obtain ⟨priceNonneg, positive, fits, -⟩ := dividable
  have product := mul_nonneg mineage priceNonneg
  unfold valued
  rw [toInt128_of_lt (by omega) fits]
  exact Int.tdiv_nonneg product positive.le

theorem Dividable.power_eq : power record.totalMineage price stat =
      valued record.totalMineage price stat * stat.coinWeight / 10000 := by
  have nonneg := mul_nonneg (dividable.valued_nonneg mineage) (Int.natCast_nonneg stat.coinWeight)
  obtain ⟨-, -, -, fits, -⟩ := dividable
  unfold power
  rw [toInt128_of_lt (by omega) fits, Int.tdiv_eq_ediv_of_nonneg nonneg]
  rfl

end

/-- A share of the quantity by weight is at most twice the quantity, for the sum of the weights is
rounded down. -/
theorem share_le {value quantity weight : Nat} (positive : sum ≠ 0)
    (part : value * weight / 10000 ≤ sum) : value * quantity / sum * weight ≤ 20000 * quantity := by
  have weighed : value * weight ≤ 20000 * sum := by omega
  have scaled : value * quantity / sum * weight * sum ≤ 20000 * quantity * sum :=
    calc value * quantity / sum * weight * sum
        = value * quantity / sum * sum * weight := by ring
      _ ≤ value * quantity * weight := Nat.mul_le_mul_right _ (Nat.div_mul_le_self _ _)
      _ = value * weight * quantity := by ring
      _ ≤ 20000 * sum * quantity := Nat.mul_le_mul_right _ weighed
      _ = 20000 * quantity * sum := by ring
  exact Nat.le_of_mul_le_mul_right scaled (Nat.pos_of_ne_zero positive)

theorem Dividable.devideAmount_nonneg (dividable : Dividable price amount stat record)
    (mineage : 0 ≤ record.totalMineage) (nonneg : 0 ≤ amount) (fits : amount < 2 ^ 62)
    (positive : sum ≠ 0) (part : power record.totalMineage price stat ≤ sum) :
    0 ≤ devideAmount record.totalMineage price amount sum stat := by
  have valueNonneg := dividable.valued_nonneg mineage
  rw [dividable.power_eq mineage] at part
  obtain ⟨-, -, -, -, shareFits⟩ := dividable
  unfold devideAmount
  obtain ⟨value, valueEq⟩ := Int.eq_ofNat_of_zero_le valueNonneg
  obtain ⟨quantity, rfl⟩ := Int.eq_ofNat_of_zero_le nonneg
  rw [valueEq] at part shareFits ⊢
  have product : toUInt128 (toInt128 ((value : Int) * quantity)) = value * quantity := by
    have cast : (value : Int) * quantity = ((value * quantity : Nat) : Int) := by
      push_cast
      rfl
    rw [cast] at shareFits ⊢
    rw [toInt128_of_lt (by omega) shareFits]
    unfold toUInt128
    omega
  have small : value * quantity / sum * stat.coinWeight ≤ 20000 * quantity :=
    share_le positive (by exact_mod_cast part)
  rw [product]
  have kept : toUInt128 ((value * quantity / sum * stat.coinWeight : Nat) : Int) =
      value * quantity / sum * stat.coinWeight := by
    unfold toUInt128
    omega
  rw [kept, toInt64_of_lt]
  · exact Int.natCast_nonneg _
  · have : (0 : Int) ≤ ((value * quantity / sum * stat.coinWeight / baseCoinWeight : Nat) : Int) :=
      Int.natCast_nonneg _
    omega
  · unfold baseCoinWeight
    omega

end Devide

/-- Without overflow, `total_power` is the sum over the currencies. -/
theorem totalPower_eq {start : Nat} (ran : totalPower env tables rewards start = .ok sum)
    (nonneg : ∀ reward ∈ rewards, 0 ≤ powerOf env tables reward)
    (fits : start + (rewards.map (powerOf env tables)).sum < 2 ^ 128) :
    (sum : Int) = start + (rewards.map (powerOf env tables)).sum := by
  induction rewards generalizing start with
  | nil =>
    cases ran
    exact (add_zero _).symm
  | cons reward rewards ih =>
    obtain ⟨stat, found, ran⟩ := of_row ran
    obtain ⟨_, -, ran⟩ := of_bind ran
    have first := nonneg reward mem_cons_self
    have rest : 0 ≤ (rewards.map (powerOf env tables)).sum := by
      apply sum_nonneg
      intro amount mem
      obtain ⟨other, listed, rfl⟩ := mem_map.mp mem
      exact nonneg other (mem_cons_of_mem _ listed)
    have added : powerOf env tables reward = power
        ((tables.recordNow stat.rewardScope).elim env.unset fun record => record.totalMineage)
        (env.avgPrice tables.blockNum stat.chain stat.supply.symbol) stat := by
      unfold powerOf
      rw [found, Option.elim_some]
    rw [← added] at ran
    rw [map_cons, sum_cons] at fits ⊢
    have kept : (toUInt128 (start + powerOf env tables reward) : Int) =
        start + powerOf env tables reward := by
      unfold toUInt128
      omega
    rw [ih ran (fun other mem => nonneg other (mem_cons_of_mem _ mem)) (by omega), kept]
    omega

def assignPool (tables : Tables) (scope : Nat) (rewardPool : Asset) : Tables :=
  (tables.setRecords scope ((tables.rewardMine scope).map fun other =>
    if other.rewardBlockNum = tables.blockNum then { other with rewardPool } else other)).assign scope
    rewardPool.amount

theorem recordNow_assignPool (tables : Tables) (scope target : Nat) (rewardPool : Asset) :
    ∃ change : RewardMineInfo → RewardMineInfo,
      (∀ record, (change record).totalMineage = record.totalMineage) ∧
      (assignPool tables scope rewardPool).recordNow target =
        (tables.recordNow target).map change := by
  by_cases same : target = scope
  · subst same
    refine ⟨fun other => if other.rewardBlockNum = tables.blockNum then { other with rewardPool }
      else other, fun record => ?_, ?_⟩
    · dsimp only
      split_ifs
      · rfl
      · rfl
    · show (update tables.rewardMine target _ target).find? _ = _
      rw [update_self, find?_map]
      congr 1
      apply congrArg (fun test => (tables.rewardMine target).find? test)
      funext record
      dsimp only [comp_apply, Tables.assign, Tables.setRecords]
      split_ifs
      · rfl
      · rfl
  · refine ⟨id, fun _ => rfl, ?_⟩
    show (update tables.rewardMine scope _ target).find? _ = _
    rw [update_of_ne same, Option.map_id]
    rfl

def withPool (tables : Tables) (rewardPool : Asset) (record : RewardMineInfo) : RewardMineInfo :=
  if record.rewardBlockNum = tables.blockNum then { record with rewardPool } else record

theorem Ages.assignPool (ages : Ages tables) {scope : Nat} {rewardPool : Asset}
    (nonneg : 0 ≤ rewardPool.amount) (fits : rewardPool.amount < 2 ^ 63) :
    Ages (assignPool tables scope rewardPool) := by
  have same (record : RewardMineInfo) : (withPool tables rewardPool record).period = record.period ∧
      (withPool tables rewardPool record).rewardBlockNum = record.rewardBlockNum := by
    unfold withPool
    split_ifs
    · exact ⟨rfl, rfl⟩
    · exact ⟨rfl, rfl⟩
  have grows (target blockNum : Nat) : tables.assigned target blockNum ≤
      (RelayToken.assignPool tables scope rewardPool).assigned target blockNum := by
    dsimp only [RelayToken.assignPool, Tables.assign, Tables.setRecords]
    by_cases equal : target = scope
    · subst equal
      rw [update_self]
      by_cases now : blockNum = tables.blockNum
      · rw [now, update_self]
        exact le_add_of_nonneg_right nonneg
      · rw [update_of_ne now]
    · rw [update_of_ne equal]
  have records (target : Nat) : ∃ change : RewardMineInfo → RewardMineInfo,
      (∀ record, (change record).period = record.period ∧
        (change record).rewardBlockNum = record.rewardBlockNum) ∧
      (∀ record ∈ tables.rewardMine target, (change record).Valid tables.blockNum ∧
        tables.credited target record.rewardBlockNum + (change record).rewardPool.amount ≤
          (RelayToken.assignPool tables scope rewardPool).assigned target record.rewardBlockNum) ∧
      (RelayToken.assignPool tables scope rewardPool).rewardMine target =
        (tables.rewardMine target).map change := by
    by_cases equal : target = scope
    · subst equal
      refine ⟨withPool tables rewardPool, same, fun record mem => ?_, update_self ..⟩
      obtain ⟨valid, paid⟩ := ages.record target record mem
      unfold withPool
      split_ifs with now
      · refine ⟨{ valid with pool := nonneg, fits }, ?_⟩
        dsimp only [RelayToken.assignPool, Tables.assign, Tables.setRecords]
        rw [update_self, now, update_self]
        exact add_le_add_left (ages.credited _ _) _
      · exact ⟨valid, paid.trans (grows _ _)⟩
    · refine ⟨id, fun _ => ⟨rfl, rfl⟩, fun record mem => ?_, ?_⟩
      · obtain ⟨valid, paid⟩ := ages.record target record mem
        exact ⟨valid, paid.trans (grows _ _)⟩
      · rw [List.map_id]
        exact update_of_ne equal _ _
  exact
    { ages with
      record := fun target record mem => by
        obtain ⟨change, kept, valid, mapped⟩ := records target
        rw [mapped] at mem
        obtain ⟨old, before, rfl⟩ := mem_map.mp mem
        rw [(kept old).2]
        exact valid old before
      sorted := fun target => by
        obtain ⟨change, kept, -, mapped⟩ := records target
        rw [mapped, pairwise_map]
        apply (ages.sorted target).imp
        intro left right earlier
        rwa [(kept left).2, (kept right).2]
      credited := fun target blockNum => (ages.credited target blockNum).trans (grows _ _)
      covered := fun currency stat found => by
        obtain ⟨change, kept, -, mapped⟩ := records stat.rewardScope
        have periods : (RelayToken.assignPool tables scope rewardPool).periods stat.rewardScope =
            tables.periods stat.rewardScope := by
          unfold Tables.periods
          rw [mapped, map_map]
          exact map_congr_left fun record _ => (kept record).1
        rw [periods]
        exact ages.covered currency stat found
      fresh := fun target large => by
        obtain ⟨change, -, -, mapped⟩ := records target
        rw [mapped, ages.fresh target large, map_nil] }

/-- `devide` only ends if every currency has a row, and a record of this block. -/
theorem exists_of_devide (ran : devide env quantity sum rewards tables = .ok result)
    (reward : RewardCurrency) (listed : reward ∈ rewards) :
    ∃ stat, tables.stats.lookup (currencyOf reward.chain reward.supply) = some stat ∧
      ∃ record, tables.recordNow stat.rewardScope = some record := by
  induction rewards generalizing tables with
  | nil => cases listed
  | cons first rest ih =>
    obtain ⟨stat, found, ran⟩ := of_row ran
    obtain ⟨record, present, ran⟩ := of_row ran
    obtain ⟨rewardPool, -, ran⟩ := of_bind ran
    rcases mem_cons.mp listed with rfl | later
    · exact ⟨stat, found, record, present⟩
    · obtain ⟨other, kept, now, there⟩ := ih ran later
      refine ⟨other, kept, ?_⟩
      obtain ⟨change, -, mapped⟩ :=
        recordNow_assignPool tables stat.rewardScope other.rewardScope rewardPool
      obtain ⟨old, before, -⟩ := Option.map_eq_some_iff.mp (mapped.symm.trans there)
      exact ⟨old, before⟩

theorem Ages.devide (ages : Ages tables) (nonneg : ∀ reward ∈ rewards, ∀ stat record,
      tables.stats.lookup (currencyOf reward.chain reward.supply) = some stat →
      tables.recordNow stat.rewardScope = some record →
      0 ≤ devideAmount record.totalMineage
        (env.avgPrice tables.blockNum stat.chain stat.supply.symbol) quantity.amount sum stat)
    (ran : devide env quantity sum rewards tables = .ok result) : Ages result := by
  induction rewards generalizing tables with
  | nil =>
    cases ran
    exact ages
  | cons first rest ih =>
    obtain ⟨stat, found, ran⟩ := of_row ran
    obtain ⟨record, present, ran⟩ := of_row ran
    obtain ⟨rewardPool, made, ran⟩ := of_bind ran
    have amount : rewardPool.amount = devideAmount record.totalMineage
        (env.avgPrice tables.blockNum stat.chain stat.supply.symbol) quantity.amount sum stat := by
      rw [env.eq_of_asset made]
    have poolNonneg : 0 ≤ rewardPool.amount := by
      rw [amount]
      exact nonneg first mem_cons_self stat record found present
    have poolFits : rewardPool.amount < 2 ^ 63 := by
      rw [amount]
      unfold devideAmount
      exact toInt64_lt _
    refine ih (ages.assignPool poolNonneg poolFits) ?_ ran
    intro reward mem other now kept there
    obtain ⟨change, same, mapped⟩ :=
      recordNow_assignPool tables stat.rewardScope other.rewardScope rewardPool
    obtain ⟨old, before, rfl⟩ := Option.map_eq_some_iff.mp (mapped.symm.trans there)
    rw [same old]
    exact nonneg reward (mem_cons_of_mem _ mem) other old kept before

theorem Ages.rewardmine (ages : Ages tables) (fits : Rewardable env tables quantity)
    (ran : rewardmine env actors quantity tables = .ok result) : Ages result := by
  obtain ⟨-, ran⟩ := of_auth ran
  obtain ⟨sum, summed, ran⟩ := of_bind ran
  split_ifs at ran with zero
  · cases ran
    exact ages
  · obtain ⟨quantityNonneg, quantityFits, dividable, sumFits⟩ := fits
    -- every currency has its record, so that nothing is read past the end
    have powers (reward : RewardCurrency) (listed : reward ∈ tables.rewards) :
        0 ≤ powerOf env tables reward := by
      obtain ⟨stat, found, record, present⟩ := exists_of_devide ran reward listed
      have mineage := (ages.record _ record (mem_of_find?_eq_some present)).1.mineage
      have value := (dividable reward listed stat found record present).valued_nonneg mineage
      have same := (dividable reward listed stat found record present).power_eq mineage
      rw [powerOf_eq found present, same]
      positivity
    have total := totalPower_eq summed powers (by omega)
    apply ages.devide _ ran
    intro reward listed stat record found present
    have mineage := (ages.record _ record (mem_of_find?_eq_some present)).1.mineage
    have part := single_le_sum (l := tables.rewards.map (powerOf env tables))
      (fun amount mem => by
        obtain ⟨other, there, rfl⟩ := mem_map.mp mem
        exact powers other there) _ (mem_map_of_mem listed)
    rw [powerOf_eq found present] at part
    apply (dividable reward listed stat found record present).devideAmount_nonneg mineage
      quantityNonneg quantityFits zero
    omega

end CodexRelay.Contracts.RelayToken
