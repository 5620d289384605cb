import CodexRelay.Contracts.RelayToken.Settlement

/-!
Contract: the mineage of the holders is covered by the records and by the currency.

Owns the invariant `Ages` and that it is kept by the parts of the actions: settling a holder,
changing the balance of a holder that has settled, writing a new row, and changing the row of a
currency.
-/

namespace CodexRelay.Contracts.RelayToken

open Chain Library List Function CurrencyStats

variable {stat : CurrencyStats} {now id : Nat} {currency : Currency} {row : Account}
  {credits : Nat → Int} {before after : List RewardMineInfo}

variable {scope : Nat} {changed : CurrencyStats} {records : List RewardMineInfo}

def CurrencyStats.reserve (stat : CurrencyStats) (now : Nat) : Int :=
  stat.totalMineage + stat.supply.amount * (now - stat.totalMineageUpdateHeight)

/-- What is known of the row of a currency: the mineage is at most that of the largest supply. -/
structure CurrencyStats.Valid (now : Nat) (stat : CurrencyStats) : Prop where
  past : stat.totalMineageUpdateHeight ≤ now
  supply : 0 ≤ stat.supply.amount
  fits : stat.supply.amount < 2 ^ 63
  mineage : 0 ≤ stat.totalMineage
  bounded : stat.totalMineage ≤ 2 ^ 63 * stat.totalMineageUpdateHeight

/-- The records and the currency cover the mineage of all holders, every record has paid what it was
credited for, and two currencies have no record in common. -/
structure Ages (tables : Tables) : Prop where
  block : tables.blockNum < 2 ^ 32
  row : ∀ key row, tables.accounts.lookup key = some row → row.holder.Valid tables.blockNum
  stat : ∀ currency stat, tables.stats.lookup currency = some stat → stat.Valid tables.blockNum
  record : ∀ scope, ∀ record ∈ tables.rewardMine scope, record.Valid tables.blockNum ∧
    tables.credited scope record.rewardBlockNum + record.rewardPool.amount ≤
      tables.assigned scope record.rewardBlockNum
  sorted : ∀ scope, (tables.rewardMine scope).Pairwise fun left right =>
    left.rewardBlockNum < right.rewardBlockNum
  credited : ∀ scope blockNum, tables.credited scope blockNum ≤ tables.assigned scope blockNum
  covered : ∀ currency stat, tables.stats.lookup currency = some stat →
    Covered Counted tables.blockNum (stat.reserve tables.blockNum)
      (holdersOf tables.accounts currency) (tables.periods stat.rewardScope)
  few : tables.rewards.length ≤ maxAmount.toNat
  next : (tables.rewards.getLast?.elim 0 fun last => last.id + 1) = tables.rewards.length
  fresh : ∀ scope, tables.rewards.length ≤ scope → tables.rewardMine scope = []
  backed : ∀ reward ∈ tables.rewards,
    tables.stats.lookup (currencyOf reward.chain reward.supply) ≠ none
  listed : ∀ currency stat, tables.stats.lookup currency = some stat →
    stat.rewardScope = maxAmount.toNat ∧ tables.findReward currency = none ∨
      stat.rewardScope < tables.rewards.length ∧ tables.findReward currency ≠ none
  distinct : ∀ currency other stat stat', tables.stats.lookup currency = some stat →
    tables.stats.lookup other = some stat' → stat.rewardScope = stat'.rewardScope →
    currency = other ∨ stat.rewardScope = maxAmount.toNat

/-- The records of a scope are valid and in order, and have paid what was credited for them. -/
def Recorded (tables : Tables) (scope : Nat) (records : List RewardMineInfo) : Prop :=
  (∀ record ∈ records, record.Valid tables.blockNum ∧
    tables.credited scope record.rewardBlockNum + record.rewardPool.amount ≤
      tables.assigned scope record.rewardBlockNum) ∧
  records.Pairwise fun left right => left.rewardBlockNum < right.rewardBlockNum

structure Fit (tables : Tables) : Prop where
  row : ∀ key row, tables.accounts.lookup key = some row →
    row.balance.amount * (tables.blockNum - row.mineageUpdateHeight) < 2 ^ 63
  record : ∀ currency stat, tables.stats.lookup currency = some stat →
    ∀ record ∈ tables.rewardMine stat.rewardScope,
      record.rewardPool.amount * record.totalMineage < 2 ^ 127

variable {env : Environment} {tables result : Tables} {owner : AccountName} {chain : Name}
  {value : Asset}

theorem CurrencyStats.Valid.reserve_bounds (valid : stat.Valid now) (block : now < 2 ^ 32) :
    0 ≤ stat.supply.amount * ((now : Int) - stat.totalMineageUpdateHeight) ∧
      stat.reserve now ≤ 2 ^ 63 * now ∧ stat.reserve now < 2 ^ 127 := by
  have past := valid.past
  have elapsed : (0 : Int) ≤ now - stat.totalMineageUpdateHeight := by omega
  have grown : stat.supply.amount * ((now : Int) - stat.totalMineageUpdateHeight) ≤
      2 ^ 63 * (now - stat.totalMineageUpdateHeight) :=
    mul_le_mul_of_nonneg_right valid.fits.le elapsed
  have bounded := valid.bounded
  unfold reserve
  refine ⟨mul_nonneg valid.supply elapsed, ?_, ?_⟩
  · omega
  · omega

section

variable (ages : Ages tables)

include ages

theorem Ages.past (scope : Nat) (period : Period) (mem : period ∈ tables.periods scope)
    : period.close ≤ tables.blockNum := by
  obtain ⟨record, present, rfl⟩ := mem_map.mp mem
  exact (ages.record scope record present).1.past

theorem Ages.valid (holder : Holder) (mem : holder ∈ holdersOf tables.accounts currency)
    : holder.Valid tables.blockNum := by
  obtain ⟨key, row, found, -, rfl⟩ := mem_holdersOf.mp mem
  exact ages.row key row found

theorem Ages.recorded (scope : Nat) : Recorded tables scope (tables.rewardMine scope) :=
  ⟨ages.record scope, ages.sorted scope⟩

theorem Ages.recorded_credit {other : Nat} (different : scope ≠ other) :
    Recorded (tables.credit other credits) scope (tables.rewardMine scope) := by
  have recorded := ages.recorded scope
  unfold Recorded at recorded ⊢
  rwa [show (tables.credit other credits).credited scope = tables.credited scope from
    update_of_ne different _ _]

/-- The row of a currency whose records no other currency has. -/
theorem Ages.distinct_insert
    (apart : ∀ other value, other ≠ currency → tables.stats.lookup other = some value →
      value.rewardScope ≠ changed.rewardScope)
    (left right : Currency) (first second : CurrencyStats)
    (foundLeft : (tables.stats.insert currency changed).lookup left = some first)
    (foundRight : (tables.stats.insert currency changed).lookup right = some second)
    (same : first.rewardScope = second.rewardScope) :
    left = right ∨ first.rewardScope = maxAmount.toNat := by
  rcases lookup_insert_cases foundLeft with ⟨rfl, rfl⟩ | ⟨differentLeft, keptLeft⟩
  · rcases lookup_insert_cases foundRight with ⟨rfl, rfl⟩ | ⟨differentRight, keptRight⟩
    · exact .inl rfl
    · exact absurd same.symm (apart right second differentRight keptRight)
  · rcases lookup_insert_cases foundRight with ⟨rfl, rfl⟩ | ⟨-, keptRight⟩
    · exact absurd same (apart left first differentLeft keptLeft)
    · exact ages.distinct left right first second keptLeft keptRight same

theorem Ages.rewardMine_unused (unused : scope = maxAmount.toNat) : tables.rewardMine scope = [] :=
  ages.fresh scope (by rw [unused]; exact ages.few)

end

/-! ### Accounts -/

/-- Accounts that change in one currency, with cover for what it has then. -/
theorem Ages.setAccount (ages : Ages tables) (same : currencyOf row.chain row.balance = currency)
    (before : ∀ old, tables.accounts.lookup (owner, id) = some old →
      currencyOf old.chain old.balance = currency) (valid : row.holder.Valid tables.blockNum)
    (covered : ∀ stat, tables.stats.lookup currency = some stat →
      Covered Counted tables.blockNum (stat.reserve tables.blockNum)
        (holdersOf (tables.accounts.insert (owner, id) row) currency)
        (tables.periods stat.rewardScope)) :
    Ages (tables.setAccount owner id row) :=
  { ages with
    row := forall_lookup_insert valid fun key value _ => ages.row key value
    covered := fun other stat found => by
      by_cases equal : other = currency
      · subst equal
        exact covered stat found
      · have kept : holdersOf (tables.accounts.insert (owner, id) row) other =
            holdersOf tables.accounts other := by
          apply holdersOf_insert_of_ne
          · rw [same]
            exact Ne.symm equal
          · intro old present
            rw [before old present]
            exact Ne.symm equal
        show Covered _ _ _ (holdersOf (tables.accounts.insert (owner, id) row) other) _
        rw [kept]
        exact ages.covered other stat found }

/-- A holder that has settled in this block gets another balance. -/
theorem Ages.setBalance {row' : Account} (ages : Ages tables)
    (found : tables.accounts.lookup (owner, id) = some row)
    (same : currencyOf row'.chain row'.balance = currencyOf row.chain row.balance)
    (current : row.mineageUpdateHeight = tables.blockNum)
    (height : row'.mineageUpdateHeight = row.mineageUpdateHeight)
    (mineage : row'.mineage = row.mineage) (nonneg : 0 ≤ row'.balance.amount) :
    Ages (tables.setAccount owner id row') := by
  have valid := ages.row _ _ found
  apply ages.setAccount same
  · intro old present
    cases found.symm.trans present
    rfl
  · exact ⟨nonneg, by rw [show row'.holder.age = row.mineage from mineage]; exact valid.age,
      by rw [show row'.holder.height = _ from height.trans current]⟩
  · intro stat exists_
    obtain ⟨rest, before, after⟩ := holdersOf_replace found same
    have covered := ages.covered _ stat exists_
    rw [before, covered_cons_current (ages.past _) current] at covered
    rw [after, covered_cons_current (ages.past _) (height.trans current)]
    rwa [show row'.holder.age = row.holder.age from mineage]

theorem Ages.emplace (ages : Ages tables) (missing : tables.accounts.lookup (owner, id) = none)
    (current : row.mineageUpdateHeight = tables.blockNum) (mineage : row.mineage = 0)
    (nonneg : 0 ≤ row.balance.amount) : Ages (tables.setAccount owner id row) := by
  apply ages.setAccount rfl
  · intro old present
    rw [missing] at present
    cases present
  · exact ⟨nonneg, mineage.ge, current.le⟩
  · intro stat exists_
    rw [holdersOf_insert_new missing, covered_cons_current (ages.past _) current,
      show row.holder.age = 0 from mineage, sub_zero]
    exact ages.covered _ stat exists_

theorem Fit.setAccount (fit : Fit tables) (current : row.mineageUpdateHeight = tables.blockNum) :
    Fit (tables.setAccount owner id row) where
  row key value found := by
    rcases lookup_insert_cases found with ⟨-, rfl⟩ | ⟨-, kept⟩
    · show _ * ((tables.blockNum : Int) - _) < _
      rw [current, sub_self, mul_zero]
      decide
    · exact fit.row key value kept
  record := fit.record

/-- The row of a currency that keeps its records and its mineage at this block. -/
theorem Ages.setStat (ages : Ages tables) (found : tables.stats.lookup currency = some stat)
    (valid : changed.Valid tables.blockNum)
    (reserve : changed.reserve tables.blockNum = stat.reserve tables.blockNum)
    (scope : changed.rewardScope = stat.rewardScope) : Ages (tables.setStat currency changed) := by
  have earlier (other : Currency) (value : CurrencyStats)
      (present : (tables.stats.insert currency changed).lookup other = some value) :
      ∃ old, tables.stats.lookup other = some old ∧ value.rewardScope = old.rewardScope ∧
        value.Valid tables.blockNum ∧
        value.reserve tables.blockNum = old.reserve tables.blockNum := by
    rcases lookup_insert_cases present with ⟨rfl, rfl⟩ | ⟨-, kept⟩
    · exact ⟨stat, found, scope, valid, reserve⟩
    · exact ⟨value, kept, rfl, ages.stat other value kept, rfl⟩
  exact
    { ages with
      stat := fun other value present => by
        obtain ⟨old, -, -, sound, -⟩ := earlier other value present
        exact sound
      covered := fun other value present => by
        obtain ⟨old, before, sameScope, -, sameReserve⟩ := earlier other value present
        show Covered _ _ (value.reserve tables.blockNum) _ (tables.periods value.rewardScope)
        rw [sameScope, sameReserve]
        exact ages.covered other old before
      backed := fun reward mem => lookup_insert_ne_none (ages.backed reward mem)
      listed := fun other value present => by
        obtain ⟨old, before, sameScope, -, -⟩ := earlier other value present
        rw [sameScope]
        exact ages.listed other old before
      distinct := fun left right first second foundLeft foundRight same => by
        obtain ⟨oldLeft, beforeLeft, scopeLeft, -, -⟩ := earlier left first foundLeft
        obtain ⟨oldRight, beforeRight, scopeRight, -, -⟩ := earlier right second foundRight
        rw [scopeLeft, scopeRight] at same
        rw [scopeLeft]
        exact ages.distinct left right oldLeft oldRight beforeLeft beforeRight same }

theorem Fit.setStat (fit : Fit tables) (found : tables.stats.lookup currency = some stat)
    (scope : changed.rewardScope = stat.rewardScope) : Fit (tables.setStat currency changed) where
  row := fit.row
  record := forall_lookup_insert (scope ▸ fit.record currency stat found) fun other value _ =>
    fit.record other value

/-- The mineage of a currency is brought up to this block, and its supply changes. -/
theorem CurrencyStats.Valid.touch (valid : stat.Valid now) (block : now < 2 ^ 32)
    (product : stat.supply.amount * (now - stat.totalMineageUpdateHeight) < 2 ^ 63)
    {supply : Asset} (nonneg : 0 ≤ supply.amount) (fits : supply.amount < 2 ^ 63) :
    Valid now { stat with
      totalMineage := stat.mineageAt now
      totalMineageUpdateHeight := now
      supply } ∧
    reserve { stat with
      totalMineage := stat.mineageAt now
      totalMineageUpdateHeight := now
      supply } now = stat.reserve now := by
  have past := valid.past
  have mineage := valid.mineage
  obtain ⟨productNonneg, bound, reserveFits⟩ := valid.reserve_bounds block
  have exact_ : stat.mineageAt now = stat.reserve now := by
    unfold mineageAt
    rw [toUInt32_sub past block, toInt64_of_lt (by omega) product]
    apply toInt128_of_lt
    · omega
    · exact reserveFits
  have reserveNonneg : 0 ≤ stat.reserve now := add_nonneg mineage productNonneg
  constructor
  · exact
      { past := le_rfl
        supply := nonneg
        fits
        mineage := by
          show 0 ≤ stat.mineageAt now
          rw [exact_]
          exact reserveNonneg
        bounded := by
          show stat.mineageAt now ≤ _
          rw [exact_]
          exact bound }
  · show stat.mineageAt now + supply.amount * (now - now) = _
    rw [exact_, sub_self, mul_zero, add_zero]

/-! ### Settling -/

theorem settleUser_cases (settled : settleUser env owner chain value tables = .ok result) :
    ∃ id row stat records walk reward, tables.find owner (currencyOf chain value) = some (id, row) ∧
      tables.stats.lookup (currencyOf chain value) = some stat ∧
      settleRecords env row.balance.amount
        { lastUpdateHeight := row.mineageUpdateHeight
          lastMineage := row.mineage
          totalReward := env.coreAsset 0
          crossDay := false
          credits := fun _ => 0 } (tables.rewardMine stat.rewardScope) = .ok (records, walk) ∧
      result = ((tables.setRecords stat.rewardScope records).credit stat.rewardScope
        walk.credits).setAccount owner id { row with
          reward
          mineage := if walk.crossDay then
              toInt64 (row.balance.amount * toUInt32 (tables.blockNum - walk.lastUpdateHeight))
            else toInt128 (row.mineage +
              toInt64 (row.balance.amount * toUInt32 (tables.blockNum - walk.lastUpdateHeight)))
          mineageUpdateHeight := tables.blockNum } := by
  obtain ⟨⟨id, row⟩, found, settled⟩ := of_row settled
  obtain ⟨-, settled⟩ := of_assert settled
  obtain ⟨stat, present, settled⟩ := of_row settled
  obtain ⟨⟨records, walk⟩, walked, settled⟩ := of_bind settled
  obtain ⟨reward, -, settled⟩ := of_bind settled
  cases settled
  exact ⟨id, row, stat, records, walk, reward, found, present, walked, rfl⟩

/-- The mineage that `settle_user` stores is the age of the holder at this block. -/
theorem settledMineage_eq {walk : Walk} (block : now < 2 ^ 32)
    (valid : (walk.holder row.balance.amount).Valid now)
    (fits : row.balance.amount * (now - walk.lastUpdateHeight) < 2 ^ 63)
    (bounded : (walk.holder row.balance.amount).accrued now < 2 ^ 127)
    (crossed : walk.crossDay = true → walk.lastMineage = 0)
    (kept : walk.crossDay = false → walk.lastMineage = row.mineage) :
    (if walk.crossDay then
      toInt64 (row.balance.amount * toUInt32 (now - walk.lastUpdateHeight))
    else toInt128 (row.mineage +
      toInt64 (row.balance.amount * toUInt32 (now - walk.lastUpdateHeight)))) =
      (walk.holder row.balance.amount).accrued now := by
  have past : walk.lastUpdateHeight ≤ now := valid.height
  have product : 0 ≤ row.balance.amount * ((now : Int) - walk.lastUpdateHeight) :=
    mul_nonneg valid.stake (by omega)
  rw [toUInt32_sub past block, toInt64_of_lt (by omega) fits]
  cases day : walk.crossDay with
  | true =>
    show _ = walk.lastMineage + _
    rw [crossed day, zero_add]
    rfl
  | false =>
    have age : 0 ≤ walk.lastMineage := valid.age
    rw [← kept day]
    apply toInt128_of_lt
    · omega
    · exact bounded

section

variable (paid : Forall₂ (fun old new => Paid (credits old.rewardBlockNum) old new) before after)

include paid

theorem Paid.exists_before {new : RewardMineInfo} (mem : new ∈ after) :
    ∃ old ∈ before, Paid (credits old.rewardBlockNum) old new := by
  induction paid with
  | nil => cases mem
  | @cons first second before after head _ ih =>
    rcases mem_cons.mp mem with rfl | mem
    · exact ⟨first, mem_cons_self, head⟩
    · obtain ⟨old, present, pay⟩ := ih mem
      exact ⟨old, mem_cons_of_mem _ present, pay⟩

theorem Paid.exists_after {old : RewardMineInfo} (mem : old ∈ before) :
    ∃ new, Paid (credits old.rewardBlockNum) old new := by
  induction paid with
  | nil => cases mem
  | cons head _ ih =>
    rcases mem_cons.mp mem with rfl | mem
    · exact ⟨_, head⟩
    · exact ih mem

theorem Paid.blockNums :
    after.map RewardMineInfo.rewardBlockNum = before.map RewardMineInfo.rewardBlockNum := by
  induction paid with
  | nil => rfl
  | cons head _ ih =>
    rw [map_cons, map_cons, head.blockNum, ih]

end

/-- A scope whose records were paid, and what is credited then. -/
theorem Ages.paid (ages : Ages tables)
    (paid : List.Forall₂ (fun before after => Paid (credits before.rewardBlockNum) before after)
      (tables.rewardMine scope) records)
    (untouched : ∀ blockNum, (∀ record ∈ tables.rewardMine scope,
      record.rewardBlockNum ≠ blockNum) → credits blockNum = 0) :
    Recorded (tables.credit scope credits) scope records ∧
      ∀ blockNum, tables.credited scope blockNum + credits blockNum ≤
        tables.assigned scope blockNum := by
  refine ⟨⟨fun record mem => ?_, ?_⟩, fun blockNum => ?_⟩
  · obtain ⟨before, present, pay⟩ := Paid.exists_before paid mem
    obtain ⟨valid, balanced⟩ := ages.record scope before present
    have nonneg := pay.nonneg
    have covered := pay.covered
    have fits := valid.fits
    show _ ∧ update tables.credited scope _ scope _ + _ ≤ tables.assigned scope _
    rw [update_self, pay.blockNum, pay.pool]
    refine ⟨⟨?_, pay.left, ?_, ?_, ?_⟩, by omega⟩
    · rw [pay.blockNum]
      exact valid.past
    · exact lt_of_le_of_lt pay.total valid.total
    · rw [pay.pool]
      omega
    · rw [pay.pool]
      omega
  · have sorted := pairwise_map.mpr (ages.sorted scope)
    rw [← Paid.blockNums paid] at sorted
    exact pairwise_map.mp sorted
  · by_cases listed : ∃ record ∈ tables.rewardMine scope, record.rewardBlockNum = blockNum
    · obtain ⟨record, present, rfl⟩ := listed
      obtain ⟨after, pay⟩ := Paid.exists_after paid present
      have balanced := (ages.record scope record present).2
      have covered := pay.covered
      omega
    · rw [untouched blockNum fun record mem same => listed ⟨record, mem, same⟩, add_zero]
      exact ages.credited scope blockNum

/-- The records of a currency are paid to one of its holders, who has settled then. -/
theorem Ages.replace (ages : Ages tables) (present : tables.stats.lookup currency = some stat)
    (before : ∀ old, tables.accounts.lookup (owner, id) = some old →
      currencyOf old.chain old.balance = currency)
    (same : currencyOf row.chain row.balance = currency) (valid : row.holder.Valid tables.blockNum)
    (recorded : Recorded (tables.credit stat.rewardScope credits) stat.rewardScope records)
    (credited : ∀ blockNum, tables.credited stat.rewardScope blockNum + credits blockNum ≤
      tables.assigned stat.rewardScope blockNum)
    (empty : tables.rewardMine stat.rewardScope = [] → records = [])
    (covered : Covered Counted tables.blockNum (stat.reserve tables.blockNum)
      (holdersOf (tables.accounts.insert (owner, id) row) currency)
      (records.map RewardMineInfo.period)) :
    Ages (((tables.setRecords stat.rewardScope records).credit stat.rewardScope
      credits).setAccount owner id row) := by
  have still (scope : Nat) (none : tables.rewardMine scope = []) :
      update tables.rewardMine stat.rewardScope records scope = [] := by
    by_cases equal : scope = stat.rewardScope
    · subst equal
      rw [update_self, empty none]
    · rw [update_of_ne equal, none]
  have all := (forall_update_iff tables.rewardMine
    (Recorded (tables.credit stat.rewardScope credits))).mpr
      ⟨recorded, fun scope different => ages.recorded_credit different⟩
  exact
    { ages with
      row := forall_lookup_insert valid fun key value _ => ages.row key value
      record := fun scope => (all scope).1
      sorted := fun scope => (all scope).2
      credited := (forall_update_iff tables.credited fun scope paid =>
        ∀ blockNum, paid blockNum ≤ tables.assigned scope blockNum).mpr
        ⟨credited, fun scope _ => ages.credited scope⟩
      covered := fun other value found => by
        show Covered _ _ _ (holdersOf (tables.accounts.insert (owner, id) row) other)
          ((update tables.rewardMine stat.rewardScope records value.rewardScope).map _)
        by_cases equal : other = currency
        · subst equal
          cases present.symm.trans found
          rwa [update_self]
        · have records_eq : update tables.rewardMine stat.rewardScope records
              value.rewardScope = tables.rewardMine value.rewardScope := by
            by_cases sameScope : value.rewardScope = stat.rewardScope
            · rcases ages.distinct other currency value stat found present sameScope with
                clash | unused
              · exact absurd clash equal
              · have none := ages.rewardMine_unused unused
                rw [still _ none, none]
            · rw [update_of_ne sameScope]
          rw [records_eq, holdersOf_insert_of_ne (by rw [same]; exact Ne.symm equal)
            fun old listed => by rw [before old listed]; exact Ne.symm equal]
          exact ages.covered other value found
      fresh := fun scope large => still scope (ages.fresh scope large) }

theorem Ages.settle (ages : Ages tables) (fit : Fit tables)
    (settled : settleUser env owner chain value tables = .ok result) :
    Ages result ∧ Fit result ∧ result.blockNum = tables.blockNum ∧
      ∃ id row, result.accounts.lookup (owner, id) = some row ∧
        currencyOf row.chain row.balance = currencyOf chain value ∧
        row.mineageUpdateHeight = result.blockNum := by
  obtain ⟨id, row, stat, records, walk, reward, found, present, walked, rfl⟩ :=
    settleUser_cases settled
  obtain ⟨lookup, same⟩ := lookup_of_find found
  have covered := ages.covered _ _ present
  have valid : ∀ holder ∈ holdersOf tables.accounts (currencyOf chain value),
    holder.Valid tables.blockNum := ages.valid
  obtain ⟨others, before, -⟩ := @holdersOf_replace _ _ row row lookup rfl
  rw [← same, before] at covered valid
  obtain ⟨periods, holder, paid, untouched, crossed, kept⟩ := settleRecords_exact walked covered
    valid ages.block (fun record mem => (ages.record _ record mem).1) (ages.sorted _)
    (fit.row _ _ lookup) (fit.record _ _ present) (fun impossible => by cases impossible)
  simp only [sub_zero] at paid
  change records.map RewardMineInfo.period =
    row.holder.settle Counted (tables.periods stat.rewardScope) at periods
  change walk.holder row.balance.amount =
    row.holder.walk Counted (tables.periods stat.rewardScope) at holder
  obtain ⟨recorded, credited⟩ := ages.paid paid untouched
  have walkValid : (walk.holder row.balance.amount).Valid tables.blockNum := by
    rw [holder]
    exact (valid _ (Multiset.mem_cons_self _ _)).walk (ages.past _)
  have past : ∀ period ∈ records.map RewardMineInfo.period, period.close ≤ tables.blockNum := by
    intro period mem
    obtain ⟨record, listed, rfl⟩ := mem_map.mp mem
    exact (recorded.1 record listed).1.past
  have settledCover := covered.settle counted_of_pos valid (ages.past _)
  rw [← periods, ← holder] at settledCover
  have enough := settledCover.reserve_nonneg
    (fun other mem => valid other (Multiset.mem_cons_of_mem mem)) past
  -- the row that is stored has all of the holder's mineage
  have later : row.holder.height ≤ (walk.holder row.balance.amount).height := by
    rw [holder]
    exact Holder.height_le_walk _ _
  have shorter : row.balance.amount * (tables.blockNum - walk.lastUpdateHeight) < 2 ^ 63 := by
    apply lt_of_le_of_lt _ (fit.row _ _ lookup)
    apply mul_le_mul_of_nonneg_left _ walkValid.stake
    have : row.mineageUpdateHeight ≤ walk.lastUpdateHeight := later
    omega
  have bounded := ((ages.stat _ _ present).reserve_bounds ages.block).2.2
  rw [settledMineage_eq ages.block walkValid shorter (by omega) crossed fun still => (kept still).2]
  have paidAges : Ages (((tables.setRecords stat.rewardScope records).credit stat.rewardScope
      walk.credits).setAccount owner id { row with
        reward
        mineage := (walk.holder row.balance.amount).accrued tables.blockNum
        mineageUpdateHeight := tables.blockNum }) := by
    refine ages.replace present ?_ same ?_ recorded credited ?_ ?_
    · intro old listed
      cases lookup.symm.trans listed
      exact same
    · exact ⟨walkValid.stake, walkValid.accrued_nonneg walkValid.height, le_rfl⟩
    · intro none
      rw [none] at paid
      cases paid
      rfl
    · obtain ⟨rest, old, new⟩ := @holdersOf_replace _ _ row { row with
        reward
        mineage := (walk.holder row.balance.amount).accrued tables.blockNum
        mineageUpdateHeight := tables.blockNum } lookup rfl
      rw [old] at before
      cases (Multiset.cons_inj_right _).mp before
      rw [← same, new]
      exact (covered_cons_current past rfl).mpr settledCover
  refine ⟨paidAges, ⟨?_, ?_⟩, rfl, id, _, AList.lookup_insert _, same, rfl⟩
  · intro key value listed
    rcases lookup_insert_cases listed with ⟨-, rfl⟩ | ⟨-, kept⟩
    · show _ * ((tables.blockNum : Int) - tables.blockNum) < _
      rw [sub_self, mul_zero]
      decide
    · exact fit.row key value kept
  · intro other value listed record mem
    have nonneg := (paidAges.covered other value listed).total_nonneg record.period
      (mem_map_of_mem mem)
    change record ∈ update tables.rewardMine stat.rewardScope records value.rewardScope
      at mem
    by_cases equal : value.rewardScope = stat.rewardScope
    · rw [equal, update_self] at mem
      obtain ⟨old, listedOld, pay⟩ := Paid.exists_before paid mem
      have poolNonneg := (recorded.1 record mem).1.pool
      have poolLe : record.rewardPool.amount ≤ old.rewardPool.amount := by
        have := pay.nonneg
        rw [pay.pool]
        omega
      exact lt_of_le_of_lt (mul_le_mul poolLe pay.total nonneg (poolNonneg.trans poolLe))
        (fit.record _ _ present old listedOld)
    · rw [update_of_ne equal] at mem
      exact fit.record other value listed record mem

end CodexRelay.Contracts.RelayToken
