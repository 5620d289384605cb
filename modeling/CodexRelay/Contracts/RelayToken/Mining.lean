import CodexRelay.Contracts.RelayToken.Days

/-!
Contract: no mining reward record is over-claimed.

Where nobody has anything in an evicted record and no product exceeds its type, the records cover
what the holders take, and pay no more than what they were assigned.

Owns:
- `RewardSolvent`, the condition `Permitted` on calls, and the step lemma of every action;
- the theorem over runs.
-/

namespace CodexRelay.Contracts.RelayToken

open Chain Library List

variable {env : Environment} {tables result : Tables} {actors : List AccountName}
  {owner : AccountName} {chain : Name} {value quantity : Asset}

variable {recipient sender : AccountName} {memo : String} {sent : List Sent}

/-! ### Balances -/

theorem find_eq_of_rows (rows : Rows tables.stats tables.accounts) {currency : Currency}
    {id number : Nat} {row other : Account} (lookup : tables.accounts.lookup (owner, id) = some row)
    (same : currencyOf row.chain row.balance = currency)
    (found : tables.find owner currency = some (number, other)) : number = id ∧ other = row := by
  obtain ⟨present, equal⟩ := lookup_of_find found
  have unique := rows.unique owner number id other row present lookup (equal.trans same.symm)
  subst unique
  exact ⟨rfl, Option.some.inj (present.symm.trans lookup)⟩

section

variable (ages : Ages tables) (fit : Fit tables) (rows : Rows tables.stats tables.accounts)

include ages fit rows

theorem Ages.subBalance (subtracted : subBalance env owner chain value tables = .ok result) :
    Ages result ∧ Fit result := by
  obtain ⟨middle, settled, subtracted⟩ := of_bind subtracted
  obtain ⟨middleAges, middleFit, -, id, row, lookup, same, current⟩ := ages.settle fit settled
  have middleRows := (moved_of_settleUser settled).rows rows
  obtain ⟨⟨number, other⟩, found, subtracted⟩ := of_row subtracted
  obtain ⟨rfl, rfl⟩ := find_eq_of_rows middleRows lookup same found
  obtain ⟨enough, subtracted⟩ := of_assert subtracted
  obtain ⟨-, subtracted⟩ := of_assert subtracted
  obtain ⟨balance, less, subtracted⟩ := of_bind subtracted
  obtain ⟨rfl, -, -, -⟩ := AssetLib.eq_of_sub less
  cases subtracted
  exact ⟨middleAges.setBalance lookup rfl current rfl rfl (sub_nonneg.mpr enough),
    middleFit.setAccount current⟩

theorem Ages.addBalance (nonneg : 0 ≤ value.amount)
    (added : addBalance env owner chain value tables = .ok result) : Ages result := by
  unfold RelayToken.addBalance at added
  split at added
  · obtain ⟨unused, added⟩ := of_assert added
    cases added
    have written : Ages (tables.setAccount owner ((tables.accountNextIds owner).getD 1)
        { balance := value
          chain
          mineage := 0
          mineageUpdateHeight := tables.blockNum
          reward := env.coreAsset 0 }) := ages.emplace unused rfl rfl nonneg
    exact { written with }
  · obtain ⟨middle, settled, added⟩ := of_bind added
    obtain ⟨middleAges, -, -, id, row, lookup, same, current⟩ := ages.settle fit settled
    have middleRows := (moved_of_settleUser settled).rows rows
    obtain ⟨⟨number, other⟩, found, added⟩ := of_row added
    obtain ⟨rfl, rfl⟩ := find_eq_of_rows middleRows lookup same found
    obtain ⟨balance, more, added⟩ := of_bind added
    obtain ⟨rfl, -, -, -⟩ := AssetLib.eq_of_add more
    cases added
    exact middleAges.setBalance lookup rfl current rfl rfl
      (add_nonneg (middleAges.row _ _ lookup).stake nonneg)

end

/-! ### Transfers -/

section

variable (ages : Ages tables)

include ages

section

variable (fit : Fit tables) (conserved : Conserved tables)
  (products : ∀ stat, tables.stats.lookup (currencyOf chain quantity) = some stat →
    stat.supply.amount * (tables.blockNum - stat.totalMineageUpdateHeight) < 2 ^ 63)

include fit conserved products

theorem Ages.issue
    (ran : issue env actors chain recipient quantity memo tables = .ok (result, sent)) :
    Ages result := by
  obtain ⟨-, ran⟩ := of_assert ran
  obtain ⟨-, ran⟩ := of_assert ran
  obtain ⟨stat, found, ran⟩ := of_row ran
  obtain ⟨-, ran⟩ := of_auth ran
  obtain ⟨-, ran⟩ := of_assert ran
  obtain ⟨positive, ran⟩ := of_assert ran
  obtain ⟨-, ran⟩ := of_assert ran
  obtain ⟨-, ran⟩ := of_assert ran
  obtain ⟨supply, more, ran⟩ := of_bind ran
  obtain ⟨rfl, -, -, fits⟩ := AssetLib.eq_of_add more
  obtain ⟨after, added, ran⟩ := of_bind ran
  cases ran
  have statValid := ages.stat _ _ found
  obtain ⟨valid, reserve⟩ := statValid.touch ages.block (products stat found)
    (add_nonneg statValid.supply positive.le) fits
  apply (ages.setStat found valid reserve rfl).addBalance (fit.setStat found rfl) _ positive.le added
  exact conserved.rows.insertStat found rfl

theorem Ages.destroy (ran : destroy env actors chain sender quantity memo tables = .ok result)
    : Ages result := by
  obtain ⟨-, ran⟩ := of_auth ran
  obtain ⟨-, ran⟩ := of_assert ran
  obtain ⟨-, ran⟩ := of_assert ran
  obtain ⟨stat, found, ran⟩ := of_row ran
  obtain ⟨-, ran⟩ := of_assert ran
  obtain ⟨-, ran⟩ := of_assert ran
  obtain ⟨-, ran⟩ := of_assert ran
  obtain ⟨enough, ran⟩ := of_assert ran
  obtain ⟨supply, less, ran⟩ := of_bind ran
  obtain ⟨rfl, -, -, fits⟩ := AssetLib.eq_of_sub less
  have statValid := ages.stat _ _ found
  obtain ⟨valid, reserve⟩ := statValid.touch ages.block (products stat found)
    (sub_nonneg.mpr enough) fits
  have kept := (ages.setStat found valid reserve rfl).subBalance (fit.setStat found rfl)
    (conserved.rows.insertStat found rfl) ran
  exact kept.1

end

section

variable (fit : Fit tables) (conserved : Conserved tables)

include fit conserved

theorem Ages.transfer
    (ran : transfer env actors sender recipient chain quantity memo tables = .ok result) :
    Ages result := by
  obtain ⟨stat, middle, -, -, positive, subtracted, added⟩ := transfer_cases ran
  obtain ⟨middleAges, middleFit⟩ := ages.subBalance fit conserved.rows subtracted
  exact middleAges.addBalance middleFit ((moved_of_subBalance subtracted).rows conserved.rows)
    positive.le added

theorem Ages.trade {type : Nat}
    (ran : trade env actors sender recipient chain quantity type memo tables = .ok (result, sent)) :
    Ages result := by
  rcases trade_cases ran with rfl | transferred
  · exact ages
  · exact ages.transfer fit conserved transferred

theorem Ages.claim {receiver : AccountName}
    (ran : claim env actors chain quantity receiver tables = .ok (result, sent)) : Ages result := by
  obtain ⟨-, ran⟩ := of_auth ran
  obtain ⟨-, ran⟩ := of_assert ran
  obtain ⟨_, -, ran⟩ := of_row ran
  obtain ⟨_, -, ran⟩ := of_row ran
  obtain ⟨middle, settled, ran⟩ := of_bind ran
  obtain ⟨⟨number, other⟩, found, ran⟩ := of_row ran
  obtain ⟨-, ran⟩ := of_assert ran
  obtain ⟨_, -, ran⟩ := of_bind ran
  obtain ⟨-, ran⟩ := of_assert ran
  cases ran
  obtain ⟨middleAges, -, -, id, row, lookup, same, current⟩ := ages.settle fit settled
  have middleRows := (moved_of_settleUser settled).rows conserved.rows
  obtain ⟨rfl, rfl⟩ := find_eq_of_rows middleRows lookup same found
  exact middleAges.setBalance lookup rfl current rfl rfl (middleAges.row _ _ lookup).stake

end

end

/-! ### Currencies -/

section

variable (ages : Ages tables)

include ages

/-- A currency takes part from this block on, with a record that does not count. -/
theorem Ages.addreward {supply : Asset} {rewardNow : Int}
    (room : tables.rewards.length < maxAmount.toNat)
    (ran : addreward env actors chain supply rewardNow tables = .ok result) : Ages result := by
  obtain ⟨-, ran⟩ := of_auth ran
  obtain ⟨-, ran⟩ := of_assert ran
  obtain ⟨stat, found, ran⟩ := of_row ran
  obtain ⟨absent, ran⟩ := of_assert ran
  obtain ⟨-, ran⟩ := of_assert ran
  cases ran
  rw [ages.next, ages.fresh _ le_rfl, nil_append]
  have unused : stat.rewardScope = maxAmount.toNat := by
    rcases ages.listed _ _ found with ⟨unused, -⟩ | ⟨-, present⟩
    · exact unused
    · exact absurd absent present
  have apart (other : Currency) (value : CurrencyStats)
      (kept : tables.stats.lookup other = some value) :
      value.rewardScope ≠ tables.rewards.length := by
    rcases ages.listed other value kept with ⟨unused, -⟩ | ⟨used, -⟩
    · omega
    · omega
  have covered := ages.covered _ _ found
  unfold Tables.periods at covered
  rw [ages.rewardMine_unused unused] at covered
  have own : Recorded tables tables.rewards.length [{
      totalMineage := 0
      rewardPool := env.coreAsset 0
      rewardBlockNum := tables.blockNum }] := by
    refine ⟨fun record mem => ?_, pairwise_singleton _ _⟩
    obtain rfl := mem_singleton.mp mem
    refine ⟨⟨le_rfl, le_rfl, show (0 : Int) < 2 ^ 127 by decide, le_rfl,
      show (0 : Int) < 2 ^ 63 by decide⟩, ?_⟩
    show _ + (0 : Int) ≤ _
    rw [add_zero]
    exact ages.credited _ _
  have all := (Function.forall_update_iff tables.rewardMine (Recorded tables)).mpr
    ⟨own, fun target _ => ages.recorded target⟩
  exact
    { ages with
      stat := forall_lookup_insert { ages.stat _ _ found with } fun other value _ =>
        ages.stat other value
      record := fun target => (all target).1
      sorted := fun target => (all target).2
      covered := fun other value present => by
        show Covered _ _ (value.reserve tables.blockNum) _
          ((Function.update tables.rewardMine tables.rewards.length _ value.rewardScope).map _)
        rcases lookup_insert_cases present with ⟨rfl, rfl⟩ | ⟨-, kept⟩
        · rw [Function.update_self]
          exact covered.cons le_rfl fun holder _ owes => lt_irrefl 0 owes.2
        · rw [Function.update_of_ne (apart other value kept)]
          exact ages.covered other value kept
      few := by
        show (tables.rewards ++ [_]).length ≤ _
        rw [length_append, length_singleton]
        exact room
      next := by
        show ((tables.rewards ++ [_]).getLast?.elim 0 fun last => last.id + 1) =
          (tables.rewards ++ [_]).length
        rw [getLast?_concat, length_append]
        rfl
      fresh := fun target large => by
        change (tables.rewards ++ [_]).length ≤ target at large
        rw [length_append, length_singleton] at large
        show Function.update tables.rewardMine tables.rewards.length _ target = []
        rw [Function.update_of_ne (by omega)]
        exact ages.fresh target (by omega)
      backed := fun reward mem => by
        rcases mem_append.mp mem with old | new
        · exact lookup_insert_ne_none (ages.backed reward old)
        · rw [mem_singleton.mp new]
          show (tables.stats.insert (currencyOf chain supply) _).lookup (currencyOf chain supply) ≠ none
          rw [AList.lookup_insert]
          exact nofun
      listed := fun other value present => by
        show value.rewardScope = _ ∧ (tables.rewards ++ [_]).find? _ = none ∨
          value.rewardScope < (tables.rewards ++ [_]).length ∧ (tables.rewards ++ [_]).find? _ ≠ none
        rw [find?_append, length_append, length_singleton, Ne, Option.or_eq_none_iff]
        rcases lookup_insert_cases present with ⟨rfl, rfl⟩ | ⟨different, kept⟩
        · refine .inr ⟨Nat.lt_succ_self _, fun missing => ?_⟩
          exact find?_eq_none.mp missing.2 _ mem_cons_self (decide_eq_true rfl)
        · rcases ages.listed other value kept with ⟨unused, missing⟩ | ⟨used, takesPart⟩
          · refine .inl ⟨unused, missing, ?_⟩
            apply find?_eq_none.mpr
            intro reward mem same
            rw [mem_singleton.mp mem] at same
            exact different (of_decide_eq_true same).symm
          · exact .inr ⟨Nat.lt_succ_of_lt used, fun missing => takesPart missing.1⟩
      distinct := ages.distinct_insert fun other value _ => apart other value }

theorem Ages.create {issuer sideAccount : AccountName} {sideAction : Name} {maximumSupply : Asset}
    (conserved : Conserved tables)
    (ran : create env actors issuer chain sideAccount sideAction maximumSupply tables = .ok result) :
    Ages result := by
  obtain ⟨-, ran⟩ := of_auth ran
  obtain ⟨-, ran⟩ := of_assert ran
  obtain ⟨-, ran⟩ := of_assert ran
  obtain ⟨-, ran⟩ := of_assert ran
  obtain ⟨missing, ran⟩ := of_assert ran
  cases ran
  have nobody : holdersOf tables.accounts (currencyOf chain maximumSupply) = 0 := by
    apply Multiset.eq_zero_of_forall_notMem
    intro holder mem
    obtain ⟨key, row, present, same, -⟩ := mem_holdersOf.mp mem
    obtain ⟨stat, found, -⟩ := conserved.rows.backed key row present
    rw [same, missing] at found
    cases found
  have absent : tables.findReward (currencyOf chain maximumSupply) = none := by
    apply find?_eq_none.mpr
    intro reward mem same
    apply ages.backed reward mem
    rw [of_decide_eq_true same]
    exact missing
  exact
    { ages with
      stat := forall_lookup_insert
        ⟨le_rfl, le_rfl, show (0 : Int) < 2 ^ 63 by decide, le_rfl, by positivity⟩
        fun other value _ => ages.stat other value
      covered := fun other value present => by
        rcases lookup_insert_cases present with ⟨rfl, rfl⟩ | ⟨-, kept⟩
        · show Covered _ _ ((0 : Int) + 0 * _) (holdersOf tables.accounts _)
            ((tables.rewardMine maxAmount.toNat).map _)
          rw [nobody, ages.rewardMine_unused rfl, zero_mul, add_zero]
          exact le_rfl
        · exact ages.covered other value kept
      backed := fun reward mem => lookup_insert_ne_none (ages.backed reward mem)
      listed := forall_lookup_insert (.inl ⟨rfl, absent⟩) fun other value _ => ages.listed other value
      distinct := fun left right first second foundLeft foundRight same => by
        rcases lookup_insert_cases foundLeft with ⟨rfl, rfl⟩ | ⟨-, keptLeft⟩
        · exact .inr rfl
        · rcases lookup_insert_cases foundRight with ⟨rfl, rfl⟩ | ⟨-, keptRight⟩
          · exact .inr same
          · exact ages.distinct left right first second keptLeft keptRight same }

theorem Ages.setweight {coin : Asset} {weight : Nat}
    (ran : setweight env actors chain coin weight tables = .ok result) : Ages result := by
  obtain ⟨-, ran⟩ := of_auth ran
  obtain ⟨stat, found, ran⟩ := of_row ran
  cases ran
  refine ages.setStat found ?_ ?_ rfl
  · exact { ages.stat _ _ found with }
  · rfl

theorem Ages.activemine (ran : activemine env actors tables = .ok result) : Ages result := by
  obtain ⟨-, ran⟩ := of_auth ran
  cases ran
  have search (currency : Currency) : (tables.rewards.map fun reward =>
      { reward with rewardNow := true }).find? (fun reward =>
        currencyOf reward.chain reward.supply = currency) = none ↔
      tables.findReward currency = none := by
    rw [find?_map, Option.map_eq_none_iff]
    rfl
  exact
    { ages with
      few := by
        show (tables.rewards.map _).length ≤ _
        rw [length_map]
        exact ages.few
      next := by
        show ((tables.rewards.map _).getLast?.elim 0 _) = (tables.rewards.map _).length
        rw [getLast?_map, length_map, ← ages.next]
        cases tables.rewards.getLast? with
        | none => rfl
        | some last => rfl
      fresh := fun scope large => by
        change (tables.rewards.map _).length ≤ scope at large
        rw [length_map] at large
        exact ages.fresh scope large
      backed := fun reward mem => by
        obtain ⟨old, before, rfl⟩ := mem_map.mp mem
        exact ages.backed old before
      listed := fun currency stat found => by
        show _ ∧ (tables.rewards.map _).find? _ = none ∨ _ < (tables.rewards.map _).length ∧
          (tables.rewards.map _).find? _ ≠ none
        rw [length_map, Ne, search currency]
        exact ages.listed currency stat found }

theorem Ages.nextBlock (conserved : Conserved tables) (block : tables.blockNum + 1 < 2 ^ 32) :
    Ages { tables with blockNum := tables.blockNum + 1 } :=
  { ages with
    block
    row := fun key row found => by
      obtain ⟨stake, age, height⟩ := ages.row key row found
      exact ⟨stake, age, Nat.le_succ_of_le height⟩
    stat := fun currency stat found => by
      have valid := ages.stat currency stat found
      exact { valid with past := Nat.le_succ_of_le valid.past }
    record := fun scope record mem => by
      obtain ⟨valid, paid⟩ := ages.record scope record mem
      exact ⟨{ valid with past := Nat.le_succ_of_le valid.past }, paid⟩
    covered := fun currency stat found => by
      have supply := conserved.supply currency stat found
      rw [← sum_stake_holdersOf] at supply
      have later := (ages.covered currency stat found).wait 1 supply.ge
      have reserve : stat.reserve (tables.blockNum + 1) =
          stat.reserve tables.blockNum + stat.supply.amount * (1 : Nat) := by
        unfold CurrencyStats.reserve
        push_cast
        ring
      show Covered _ _ (stat.reserve (tables.blockNum + 1)) _ _
      rwa [reserve] }

end

/-! ### Runs -/

/-- The records hold nothing negative, cover what their holders would take, and have not paid more
than they were assigned. -/
structure RewardSolvent (tables : Tables) : Prop where
  nonneg : ∀ scope, ∀ record ∈ tables.rewardMine scope,
    0 ≤ record.totalMineage ∧ 0 ≤ record.rewardPool.amount
  mineage : ∀ currency stat index record, tables.stats.lookup currency = some stat →
    (tables.rewardMine stat.rewardScope)[index]? = some record →
    ((holdersOf tables.accounts currency).map fun holder =>
      (holder.takes Counted (tables.periods stat.rewardScope)).getD index 0).sum ≤
        record.totalMineage
  credited : ∀ scope blockNum, tables.credited scope blockNum ≤ tables.assigned scope blockNum

theorem Ages.solvent (ages : Ages tables) : RewardSolvent tables where
  nonneg scope record mem :=
    ⟨(ages.record scope record mem).1.mineage, (ages.record scope record mem).1.pool⟩
  mineage currency stat index record found present := by
    have period : (tables.periods stat.rewardScope)[index]? = some record.period := by
      unfold Tables.periods
      rw [getElem?_map, present, Option.map_some]
    exact ((ages.covered currency stat found).takes_le period).2
  credited := ages.credited

/-- What a settlement multiplies fits in `int64_t` and `int128_t`. -/
def Fitting (tables : Tables) : Prop :=
  (∀ entry ∈ tables.accounts.entries,
    entry.2.balance.amount * (tables.blockNum - entry.2.mineageUpdateHeight) < 2 ^ 63) ∧
  ∀ entry ∈ tables.stats.entries, ∀ record ∈ tables.rewardMine entry.2.rewardScope,
    record.rewardPool.amount * record.totalMineage < 2 ^ 127
deriving Decidable

theorem Fitting.fit (fitting : Fitting tables) : Fit tables where
  row key row found := fitting.1 ⟨key, row⟩ (AList.mem_lookup_iff.mp found)
  record currency stat found := fitting.2 ⟨currency, stat⟩ (AList.mem_lookup_iff.mp found)

/-- What `issue` and `destroy` multiply for the currency fits in `int64_t`. -/
def SupplyFitting (tables : Tables) (currency : Currency) : Prop :=
  ∀ stat ∈ tables.stats.lookup currency,
    stat.supply.amount * (tables.blockNum - stat.totalMineageUpdateHeight) < 2 ^ 63
deriving Decidable

/-- The calls in whose products nothing overflows, that evict no record in which a holder still has
something, and that close the day before anybody settles in the block. -/
def Permitted (env : Environment) (tables : Tables) : Call → Prop
  | .issue _ chain _ quantity _ => Fitting tables ∧ SupplyFitting tables (currencyOf chain quantity)
  | .destroy _ chain _ quantity _ =>
    Fitting tables ∧ SupplyFitting tables (currencyOf chain quantity)
  | .transfer .. => Fitting tables
  | .trade .. => Fitting tables
  | .claim .. => Fitting tables
  | .addreward .. => tables.rewards.length < maxAmount.toNat
  | .rewardmine _ quantity => Rewardable env tables quantity
  | .settlemine _ =>
    (∀ entry ∈ tables.accounts.entries, entry.2.mineageUpdateHeight < tables.blockNum) ∧
      ∀ reward ∈ tables.rewards, Evictable tables reward
  | .nextBlock => tables.blockNum + 1 < 2 ^ 32
  | _ => True

instance (env : Environment) (tables : Tables) : (call : Call) →
    Decidable (Permitted env tables call)
  | .issue .. | .destroy .. | .settlemine _ => inferInstanceAs (Decidable (_ ∧ _))
  | .transfer .. | .trade .. | .claim .. => inferInstanceAs (Decidable (Fitting tables))
  | .addreward .. | .nextBlock => inferInstanceAs (Decidable (_ < _))
  | .rewardmine _ quantity => inferInstanceAs (Decidable (Rewardable env tables quantity))
  | .on .. | .create .. | .activemine .. | .setweight .. => .isTrue trivial

theorem Ages.empty : Ages {} where
  block := by decide
  row := nofun
  stat := nofun
  record := nofun
  sorted := fun _ => .nil
  credited := fun _ _ => le_rfl
  covered := nofun
  few := Nat.zero_le _
  next := rfl
  fresh := fun _ _ => rfl
  backed := nofun
  listed := nofun
  distinct := nofun

theorem ages_of_step {call : Call} (ages : Ages tables) (conserved : Conserved tables)
    (permitted : Permitted env tables call) (ran : step env tables call = .ok result) :
    Ages result := by
  obtain ⟨⟨after, sent⟩, executed, returned⟩ := of_bind ran
  cases returned
  cases call with
  | on =>
    obtain ⟨-, executed⟩ := of_auth executed
    obtain ⟨_, -, executed⟩ := of_row executed
    cases executed
    exact ages
  | create => exact ages.create conserved (ok_of_silent executed)
  | issue => exact ages.issue permitted.1.fit conserved permitted.2 executed
  | destroy => exact ages.destroy permitted.1.fit conserved permitted.2 (ok_of_silent executed)
  | transfer => exact ages.transfer (Fitting.fit permitted) conserved (ok_of_silent executed)
  | trade => exact ages.trade (Fitting.fit permitted) conserved executed
  | addreward => exact ages.addreward permitted (ok_of_silent executed)
  | rewardmine => exact ages.rewardmine permitted (ok_of_silent executed)
  | claim => exact ages.claim (Fitting.fit permitted) conserved executed
  | settlemine =>
    obtain ⟨-, settled⟩ := of_auth (ok_of_silent executed)
    obtain ⟨early, evictable⟩ := permitted
    apply ages.settleCurrencies _ (fun _ mem => mem) evictable settled
    intro key row found
    exact early ⟨key, row⟩ (AList.mem_lookup_iff.mp found)
  | activemine => exact ages.activemine (ok_of_silent executed)
  | setweight => exact ages.setweight (ok_of_silent executed)
  | nextBlock =>
    cases executed
    exact ages.nextBlock conserved permitted

/-- In every run of permitted calls the mining reward records are not over-claimed. -/
theorem rewardSolvent_of_run {visited : List Tables} {last : Tables}
    (run : Run (Taken (step env) (Permitted env)) {} visited last) : RewardSolvent last := by
  have kept : Conserved last ∧ Ages last := by
    apply Taken.invariant ⟨Conserved.empty, Ages.empty⟩ _ run
    rintro tables call next ⟨conserved, ages⟩ permitted stepped
    exact ⟨conserved_of_step conserved stepped, ages_of_step ages conserved permitted stepped⟩
  exact kept.2.solvent

/-- Two holders of the currency (7, 1), of whose tokens one is moved, share the mining reward of a
day. -/
def sharedDay : List Call :=
  [.create [7] 5 7 8 9 ⟨10000000, 260⟩, .issue [5] 7 5 ⟨1000000, 260⟩ "",
    .addreward [2] 7 ⟨0, 260⟩ 1, .nextBlock, .transfer [5] 5 6 7 ⟨250000, 260⟩ "", .nextBlock,
    .settlemine [2], .rewardmine [2] ⟨400, 4⟩, .nextBlock, .transfer [6] 6 5 7 ⟨50000, 260⟩ ""]

/-- Of the mineage of the day, 2000000, the account 6 has an eighth, and gets an eighth of the pool. -/
theorem rewardSolvent_of_run_sharedDay :
    ∃ visited last, Run (Taken (step .bounded) (Permitted .bounded)) {} visited last ∧
      ((last.find 5 (7, 1)).map (fun row => row.2.reward.amount) = some 350 ∧
        (last.find 6 (7, 1)).map (fun row => row.2.reward.amount) = some 50) ∧
      RewardSolvent last := by
  obtain ⟨visited, last, run, rewards⟩ := @exists_run_of_replay _ _ _ (step .bounded)
    (Permitted .bounded) {} _ sharedDay
    (fun last => (last.find 5 (7, 1)).map (fun row => row.2.reward.amount) = some 350 ∧
      (last.find 6 (7, 1)).map (fun row => row.2.reward.amount) = some 50) _ (by decide +kernel)
  exact ⟨visited, last, run, rewards, rewardSolvent_of_run run⟩

/-- The product of the supply and three blocks does not fit in `int64_t`, so that the record of the
next day has a negative `total_mineage`. -/
theorem mineage_negative_after_overflow :
    ∃ visited last, Run (Taken (step .bounded) fun _ _ => True) {} visited last ∧
      ¬ RewardSolvent last := by
  obtain ⟨visited, last, run, records⟩ := @exists_run_of_replay _ _ _ (step .bounded)
    (fun _ _ => True) {} _
    [.create [7] 5 7 8 9 ⟨2 ^ 62 - 1, 260⟩, .issue [5] 7 5 ⟨2 ^ 62 - 4, 260⟩ "",
      .addreward [2] 7 ⟨0, 260⟩ 1, .nextBlock, .nextBlock, .nextBlock,
      .issue [5] 7 5 ⟨1, 260⟩ "", .nextBlock, .settlemine [2]]
    (fun last => ∃ record ∈ last.rewardMine 0, record.totalMineage < 0) _ (by decide +kernel)
  obtain ⟨record, mem, negative⟩ := records
  refine ⟨visited, last, run, fun solvent => ?_⟩
  have nonneg := (solvent.nonneg 0 record mem).1
  omega

end CodexRelay.Contracts.RelayToken
