import CodexRelay.Contracts.RelayToken.Conservation
import CodexRelay.Library.LazySettlement

/-!
Contract: `settle_user` is lazy settlement against the mining reward records.

Owns:
- the rows of a currency as holders, and the records of a scope as periods that count while mineage
  is left in them;
- that the loop takes from every record what the holder has there, as long as the products fit in
  their types, and pays no more than the pool.
-/

namespace CodexRelay.Contracts.RelayToken

open Chain Library List AList

/-! ### Holders and periods -/

def Counted (total : Int) : Prop := 0 < total

instance : DecidablePred Counted := fun total => inferInstanceAs (Decidable (0 < total))

theorem counted_of_pos (total : Int) (positive : 0 < total) : Counted total := positive

def Account.holder (row : Account) : Holder where
  stake := row.balance.amount
  height := row.mineageUpdateHeight
  age := row.mineage

def RewardMineInfo.period (record : RewardMineInfo) : Period where
  close := record.rewardBlockNum
  total := record.totalMineage

def holdersOf (accounts : AList fun _ : AccountName × Nat => Account) (currency : Currency) :
    Multiset Holder :=
  ((accounts.entries.filter fun entry => currencyOf entry.2.chain entry.2.balance = currency).map
    fun entry => entry.2.holder : List Holder)

def Tables.periods (tables : Tables) (scope : Nat) : List Period :=
  (tables.rewardMine scope).map RewardMineInfo.period

section Holders

variable {accounts : AList fun _ : AccountName × Nat => Account} {key : AccountName × Nat}
  {row row' : Account} {currency : Currency}

theorem mem_holdersOf {holder : Holder} :
    holder ∈ holdersOf accounts currency ↔
      ∃ key row, accounts.lookup key = some row ∧ currencyOf row.chain row.balance = currency ∧
        row.holder = holder := by
  unfold holdersOf
  rw [Multiset.mem_coe, mem_map]
  constructor
  · rintro ⟨⟨key, row⟩, listed, rfl⟩
    obtain ⟨present, same⟩ := mem_filter.mp listed
    exact ⟨key, row, mem_lookup_iff.mpr present, of_decide_eq_true same, rfl⟩
  · rintro ⟨key, row, present, same, rfl⟩
    exact ⟨⟨key, row⟩, mem_filter.mpr ⟨mem_lookup_iff.mp present, decide_eq_true same⟩, rfl⟩

theorem holdersOf_of_perm (accounts : AList fun _ : AccountName × Nat => Account)
    {rows : List (Sigma fun _ : AccountName × Nat => Account)}
    (same : accounts.entries.Perm (⟨key, row⟩ :: rows)) (currency : Currency) :
    holdersOf accounts currency =
      (if currencyOf row.chain row.balance = currency then {row.holder} else 0) +
        ((rows.filter fun entry => currencyOf entry.2.chain entry.2.balance = currency).map
          fun entry => entry.2.holder : List Holder) := by
  unfold holdersOf
  rw [Multiset.coe_eq_coe.mpr ((same.filter _).map _), filter_cons]
  split_ifs with listed counted counted
  · rfl
  · exact absurd (of_decide_eq_true listed) counted
  · exact absurd (decide_eq_true counted) listed
  · rw [zero_add]

theorem holdersOf_replace (found : accounts.lookup key = some row)
    (same : currencyOf row'.chain row'.balance = currencyOf row.chain row.balance) :
    ∃ rest, holdersOf accounts (currencyOf row.chain row.balance) = row.holder ::ₘ rest ∧
      holdersOf (accounts.insert key row') (currencyOf row.chain row.balance) =
        row'.holder ::ₘ rest := by
  have before := holdersOf_of_perm accounts (entries_perm found) (currencyOf row.chain row.balance)
  have after := holdersOf_of_perm (accounts.insert key row')
    (List.Perm.of_eq entries_insert) (currencyOf row.chain row.balance)
  rw [if_pos rfl, Multiset.singleton_add] at before
  rw [if_pos same, Multiset.singleton_add] at after
  exact ⟨_, before, after⟩

theorem holdersOf_insert_new (missing : accounts.lookup key = none) :
    holdersOf (accounts.insert key row') (currencyOf row'.chain row'.balance) =
      row'.holder ::ₘ holdersOf accounts (currencyOf row'.chain row'.balance) := by
  have after := holdersOf_of_perm (accounts.insert key row')
    (List.Perm.of_eq entries_insert) (currencyOf row'.chain row'.balance)
  rw [if_pos rfl, show accounts.entries.kerase key = accounts.entries from
    entries_erase_of_none missing] at after
  exact after

theorem holdersOf_insert_of_ne (different : currencyOf row'.chain row'.balance ≠ currency)
    (before : ∀ row, accounts.lookup key = some row → currencyOf row.chain row.balance ≠ currency) :
    holdersOf (accounts.insert key row') currency = holdersOf accounts currency := by
  have after := holdersOf_of_perm (accounts.insert key row')
    (List.Perm.of_eq entries_insert) currency
  rw [if_neg different, zero_add] at after
  rw [after]
  cases found : accounts.lookup key with
  | none =>
    rw [show accounts.entries.kerase key = accounts.entries from entries_erase_of_none found]
    rfl
  | some row =>
    rw [holdersOf_of_perm accounts (entries_perm found) currency, if_neg (before row found), zero_add]
    rfl

theorem sum_stake_holdersOf (accounts : AList fun _ : AccountName × Nat => Account)
    (currency : Currency) :
    ((holdersOf accounts currency).map Holder.stake).sum = total (held currency) accounts := by
  unfold holdersOf total
  rw [Multiset.map_coe, Multiset.sum_coe]
  induction accounts.entries with
  | nil => rfl
  | cons entry entries ih =>
    rw [map_cons, sum_cons, ← ih, filter_cons]
    unfold held
    split_ifs with listed counted counted
    · rfl
    · exact absurd (of_decide_eq_true listed) counted
    · exact absurd (decide_eq_true counted) listed
    · rw [zero_add]

end Holders

/-! ### The loop -/

def Walk.holder (walk : Walk) (balance : Int) : Holder where
  stake := balance
  height := walk.lastUpdateHeight
  age := walk.lastMineage

/-- What is known of a record: it is not of the future, and its amounts fit. -/
structure RewardMineInfo.Valid (now : Nat) (record : RewardMineInfo) : Prop where
  past : record.rewardBlockNum ≤ now
  mineage : 0 ≤ record.totalMineage
  total : record.totalMineage < 2 ^ 127
  pool : 0 ≤ record.rewardPool.amount
  fits : record.rewardPool.amount < 2 ^ 63

structure Paid (amount : Int) (before after : RewardMineInfo) : Prop where
  blockNum : after.rewardBlockNum = before.rewardBlockNum
  pool : after.rewardPool.amount = before.rewardPool.amount - amount
  nonneg : 0 ≤ amount
  covered : amount ≤ before.rewardPool.amount
  total : after.totalMineage ≤ before.totalMineage
  left : 0 ≤ after.totalMineage

section Loop

variable {env : Environment} {balance : Int} {walk walk' : Walk} {record record' : RewardMineInfo}
  {now : Nat}

theorem share_bounds {pool taken total : Int} (pool_nonneg : 0 ≤ pool) (pool_fits : pool < 2 ^ 63)
    (taken_nonneg : 0 ≤ taken) (taken_le : taken ≤ total) (positive : 0 < total)
    (fits : pool * total < 2 ^ 127) :
    0 ≤ toInt64 ((toInt128 (pool * taken)).tdiv total) ∧
      toInt64 ((toInt128 (pool * taken)).tdiv total) ≤ pool := by
  have product : 0 ≤ pool * taken := mul_nonneg pool_nonneg taken_nonneg
  have below : pool * taken ≤ pool * total := mul_le_mul_of_nonneg_left taken_le pool_nonneg
  have share : 0 ≤ pool * taken / total := Int.ediv_nonneg product positive.le
  have part : pool * taken / total ≤ pool := Int.ediv_le_of_le_mul positive below
  rw [toInt128_of_lt (by omega) (by omega), Int.tdiv_eq_ediv_of_nonneg product,
    toInt64_of_lt (by omega) (by omega)]
  exact ⟨share, part⟩

/-- The mineage that the loop computes is the age of the holder at the record. -/
theorem Walk.mineage_eq (balance : Int) (late : walk.lastUpdateHeight < record.rewardBlockNum)
    (block : record.rewardBlockNum < 2 ^ 32) (nonneg : 0 ≤ balance) (age : 0 ≤ walk.lastMineage)
    (fits : balance * (record.rewardBlockNum - walk.lastUpdateHeight) < 2 ^ 63)
    (bounded : (walk.holder balance).accrued record.rewardBlockNum < 2 ^ 127) :
    walk.mineage balance record = (walk.holder balance).accrued record.rewardBlockNum := by
  have product : 0 ≤ balance * ((record.rewardBlockNum : Int) - walk.lastUpdateHeight) :=
    mul_nonneg nonneg (by omega)
  unfold Walk.mineage
  rw [toUInt32_sub late.le block, toInt64_of_lt (by omega) fits]
  apply toInt128_of_lt
  · omega
  · exact bounded

theorem settleRecord_exact (ran : settleRecord env balance walk record = .ok (record', walk'))
    (valid : (walk.holder balance).Valid now) (block : now < 2 ^ 32) (sound : record.Valid now)
    (taken_le : (walk.holder balance).take Counted record.period ≤ record.totalMineage)
    (fits : balance * (now - walk.lastUpdateHeight) < 2 ^ 63)
    (product : record.rewardPool.amount * record.totalMineage < 2 ^ 127) :
    ∃ amount, record'.period = { record.period with
        total := record.totalMineage - (walk.holder balance).take Counted record.period } ∧
      walk'.holder balance = (walk.holder balance).advance Counted record.period ∧
      Paid amount record record' ∧
      (∀ blockNum, walk'.credits blockNum = walk.credits blockNum +
        if blockNum = record.rewardBlockNum then amount else 0) ∧
      (walk' = walk ∨ walk'.crossDay = true ∧ walk'.lastMineage = 0) := by
  unfold settleRecord at ran
  split_ifs at ran with owes
  · obtain ⟨reward, made, ran⟩ := of_bind ran
    obtain ⟨totalReward, -, ran⟩ := of_bind ran
    obtain ⟨rewardPool, less, ran⟩ := of_bind ran
    obtain ⟨rfl, -, -, -⟩ := AssetLib.eq_of_sub less
    cases ran
    have owed : (walk.holder balance).Owes Counted record.period := owes
    rw [Holder.take_of_owes owed] at taken_le ⊢
    have age_nonneg := valid.accrued_nonneg owes.1.le
    have shorter : balance * (record.rewardBlockNum - walk.lastUpdateHeight) ≤
        balance * (now - walk.lastUpdateHeight) := by
      apply mul_le_mul_of_nonneg_left _ valid.stake
      have := sound.past
      omega
    have total := sound.total
    have mineage := Walk.mineage_eq balance owes.1 (lt_of_le_of_lt sound.past block)
      valid.stake valid.age (lt_of_le_of_lt shorter fits) (lt_of_le_of_lt taken_le total)
    rw [mineage] at made
    obtain ⟨nonneg, part⟩ := share_bounds sound.pool sound.fits age_nonneg taken_le owes.2 product
    have amount := congrArg Asset.amount (AssetLib.eq_of_asset made)
    have left : toInt128 (record.totalMineage - walk.mineage balance record) =
        record.totalMineage - (walk.holder balance).accrued record.rewardBlockNum := by
      have : (walk.holder balance).accrued record.rewardBlockNum ≤ record.totalMineage := taken_le
      have : 0 ≤ (walk.holder balance).accrued record.rewardBlockNum := age_nonneg
      rw [mineage]
      exact toInt128_of_lt (by omega) (by omega)
    refine ⟨reward.amount, ?_, ?_, ⟨rfl, rfl, ?_, ?_, ?_, ?_⟩, ?_, .inr ⟨rfl, rfl⟩⟩
    · unfold RewardMineInfo.period
      dsimp only
      rw [left]
    · rw [Holder.advance_of_owes owed]
      rfl
    · rw [amount]
      exact nonneg
    · rw [amount]
      exact part
    · show toInt128 _ ≤ _
      rw [left]
      exact sub_le_self _ age_nonneg
    · show 0 ≤ toInt128 _
      rw [left]
      exact sub_nonneg.mpr taken_le
    · intro blockNum
      by_cases same : blockNum = record.rewardBlockNum
      · subst same
        rw [if_pos rfl]
        exact Function.update_self _ _ _
      · rw [if_neg same, add_zero]
        exact Function.update_of_ne same _ _
  · cases ran
    have settled : ¬ (walk.holder balance).Owes Counted record.period := owes
    refine ⟨0, ?_, (Holder.advance_of_not_owes settled).symm,
      ⟨rfl, (sub_zero _).symm, le_rfl, sound.pool, le_rfl, sound.mineage⟩, fun blockNum => ?_, .inl rfl⟩
    · rw [Holder.take_of_not_owes settled, sub_zero]
      rfl
    · rw [ite_self, add_zero]

/-- The whole loop: it settles the holder, and every record pays what it is credited for. -/
theorem settleRecords_exact {records records' : List RewardMineInfo} {others : Multiset Holder}
    {reserve : Int} (ran : settleRecords env balance walk records = .ok (records', walk'))
    (covered : Covered Counted now reserve (walk.holder balance ::ₘ others)
      (records.map RewardMineInfo.period))
    (valid : ∀ holder ∈ walk.holder balance ::ₘ others, holder.Valid now) (block : now < 2 ^ 32)
    (sound : ∀ record ∈ records, record.Valid now)
    (sorted : records.Pairwise fun left right => left.rewardBlockNum < right.rewardBlockNum)
    (fits : balance * (now - walk.lastUpdateHeight) < 2 ^ 63)
    (products : ∀ record ∈ records, record.rewardPool.amount * record.totalMineage < 2 ^ 127)
    (crossed : walk.crossDay = true → walk.lastMineage = 0) :
    records'.map RewardMineInfo.period =
        (walk.holder balance).settle Counted (records.map RewardMineInfo.period) ∧
      walk'.holder balance =
        (walk.holder balance).walk Counted (records.map RewardMineInfo.period) ∧
      List.Forall₂ (fun before after => Paid (walk'.credits before.rewardBlockNum -
        walk.credits before.rewardBlockNum) before after) records records' ∧
      (∀ blockNum, (∀ record ∈ records, record.rewardBlockNum ≠ blockNum) →
        walk'.credits blockNum = walk.credits blockNum) ∧
      (walk'.crossDay = true → walk'.lastMineage = 0) ∧
      (walk'.crossDay = false → walk.crossDay = false ∧ walk'.lastMineage = walk.lastMineage) := by
  induction records generalizing walk others records' with
  | nil =>
    cases ran
    exact ⟨rfl, rfl, .nil, fun _ _ => rfl, crossed, fun still => ⟨still, rfl⟩⟩
  | cons record records ih =>
    obtain ⟨⟨first, middle⟩, ranFirst, ran⟩ := of_bind ran
    obtain ⟨⟨rest, last⟩, ranRest, ran⟩ := of_bind ran
    cases ran
    have firstSound := sound record mem_cons_self
    have holderValid := valid _ (Multiset.mem_cons_self _ _)
    obtain ⟨amount, period, holder, paid, credits, moved⟩ := settleRecord_exact ranFirst
      holderValid block firstSound
      (covered.take_le fun other mem => valid other (Multiset.mem_cons_of_mem mem)) fits
      (products record mem_cons_self)
    have later : walk.lastUpdateHeight ≤ middle.lastUpdateHeight := by
      have advanced : (walk.holder balance).height ≤
        ((walk.holder balance).advance Counted record.period).height := Holder.height_le_advance _ _
      rwa [← holder] at advanced
    have shorter : balance * (now - middle.lastUpdateHeight) < 2 ^ 63 := by
      apply lt_of_le_of_lt _ fits
      apply mul_le_mul_of_nonneg_left _ holderValid.stake
      omega
    have tailCovered : Covered Counted now reserve ((walk.holder balance).advance Counted
        record.period ::ₘ others.map fun other => other.advance Counted record.period)
        (records.map RewardMineInfo.period) := covered.tail
    have tailValid := @valid_tail Counted _ now others (walk.holder balance) record.period valid
      firstSound.past
    rw [← holder] at tailCovered tailValid
    have middleCrossed : middle.crossDay = true → middle.lastMineage = 0 := by
      rcases moved with rfl | ⟨-, settled⟩
      · exact crossed
      · exact fun _ => settled
    obtain ⟨periods, walked, restPaid, untouched, done, undone⟩ := ih ranRest
      tailCovered tailValid (fun other mem => sound other (mem_cons_of_mem _ mem))
      (pairwise_cons.mp sorted).2 shorter
      (fun other mem => products other (mem_cons_of_mem _ mem)) middleCrossed
    have different : ∀ other ∈ records, other.rewardBlockNum ≠ record.rewardBlockNum :=
      fun other mem => ((pairwise_cons.mp sorted).1 other mem).ne'
    have apart := (forall₂_and_left _ _).mpr ⟨different, restPaid⟩
    refine ⟨?_, ?_, .cons ?_ (apart.imp fun before after paid => ?_), ?_, done, ?_⟩
    · rw [map_cons, period, periods, holder]
      rfl
    · rw [walked, holder]
      rfl
    · have gain : walk'.credits record.rewardBlockNum - walk.credits record.rewardBlockNum =
          amount := by
        rw [untouched _ different, credits, if_pos rfl]
        omega
      rwa [gain]
    · rw [credits, if_neg paid.1, add_zero] at paid
      exact paid.2
    · intro blockNum absent
      rw [untouched blockNum fun other mem => absent other (mem_cons_of_mem _ mem), credits,
        if_neg (Ne.symm (absent record mem_cons_self)), add_zero]
    · intro still
      obtain ⟨before, same⟩ := undone still
      rcases moved with rfl | ⟨crossedDay, -⟩
      · exact ⟨before, same⟩
      · rw [before] at crossedDay
        cases crossedDay

end Loop

end CodexRelay.Contracts.RelayToken
