import CodexRelay.Contracts.RelayToken.Model
import CodexRelay.Library.Run

/-!
Contract: the supply of a currency is what its holders have.

Owns:
- what each action does to the balances: settling moves nothing, and `sub_balance` and `add_balance`
  change the balance of one row;
- the invariant `Conserved` and that every run keeps it.
-/

namespace CodexRelay.Contracts.RelayToken

open Chain Library AList

variable {stat changed : CurrencyStats} {after : Tables} {recipient sender : AccountName}
  {memo : String} {sent : List Sent}

variable {before middle : Tables} {amount : Int} {type : Nat} {rewards : List RewardCurrency}

/-! ### Balances of a currency -/

def held (currency : Currency) (row : Account) : Int :=
  if currencyOf row.chain row.balance = currency then row.balance.amount else 0

/-- The rows hold nothing negative, each is of a currency that exists, and an owner has one row for
a currency. -/
structure Rows (stats : AList fun _ : Currency => CurrencyStats)
    (accounts : AList fun _ : AccountName × Nat => Account) : Prop where
  nonneg : ∀ key row, accounts.lookup key = some row → 0 ≤ row.balance.amount
  backed : ∀ key row, accounts.lookup key = some row →
    ∃ stat, stats.lookup (currencyOf row.chain row.balance) = some stat ∧
      row.balance.symbol = stat.supply.symbol
  unique : ∀ owner left right row other, accounts.lookup (owner, left) = some row →
    accounts.lookup (owner, right) = some other →
    currencyOf row.chain row.balance = currencyOf other.chain other.balance → left = right

/-- The supply of every currency is the sum of the balances, and at most `max_supply`. -/
structure Conserved (tables : Tables) : Prop where
  rows : Rows tables.stats tables.accounts
  key : ∀ currency stat, tables.stats.lookup currency = some stat →
    currencyOf stat.chain stat.supply = currency
  supply : ∀ currency stat, tables.stats.lookup currency = some stat →
    stat.supply.amount = total (held currency) tables.accounts
  bounded : ∀ currency stat, tables.stats.lookup currency = some stat →
    0 ≤ stat.supply.amount ∧ stat.supply.amount ≤ stat.maxSupply.amount ∧
      stat.maxSupply.amount < 2 ^ 63

/-! ### Lookups -/

theorem Tables.accounts_setAccount (tables : Tables) (owner : AccountName) (id : Nat)
    (row : Account) :
    (tables.setAccount owner id row).accounts = tables.accounts.insert (owner, id) row :=
  rfl

section Find

variable {tables : Tables} {owner : AccountName} {currency : Currency}

theorem lookup_of_find {id : Nat} {row : Account}
    (found : tables.find owner currency = some (id, row)) :
    tables.accounts.lookup (owner, id) = some row ∧ currencyOf row.chain row.balance = currency := by
  obtain ⟨entry, searched, same⟩ := Option.map_eq_some_iff.mp found
  obtain ⟨⟨holder, number⟩, value⟩ := entry
  cases same
  have matched := List.find?_some searched
  obtain ⟨rfl, currency⟩ := of_decide_eq_true matched
  exact ⟨mem_lookup_iff.mpr (List.mem_of_find?_eq_some searched), currency⟩

theorem ne_of_find_none (missing : tables.find owner currency = none) {id : Nat} {row : Account}
    (present : tables.accounts.lookup (owner, id) = some row) :
    currencyOf row.chain row.balance ≠ currency := by
  intro same
  have searched := List.find?_eq_none.mp (Option.map_eq_none_iff.mp missing) ⟨(owner, id), row⟩
    (mem_lookup_iff.mp present)
  exact searched (decide_eq_true ⟨rfl, same⟩)

end Find

section Rows

variable {stats : AList fun _ : Currency => CurrencyStats}
  {accounts : AList fun _ : AccountName × Nat => Account} {owner : AccountName} {id : Nat}
  {row row' : Account}

theorem Rows.insert (sound : Rows stats accounts) (nonneg : 0 ≤ row'.balance.amount)
    (backed : ∃ stat, stats.lookup (currencyOf row'.chain row'.balance) = some stat ∧
      row'.balance.symbol = stat.supply.symbol)
    (fresh : ∀ other value, other ≠ id → accounts.lookup (owner, other) = some value →
      currencyOf value.chain value.balance ≠ currencyOf row'.chain row'.balance) :
    Rows stats (accounts.insert (owner, id) row') where
  nonneg key value found := by
    rcases lookup_insert_cases found with ⟨-, rfl⟩ | ⟨-, kept⟩
    · exact nonneg
    · exact sound.nonneg key value kept
  backed key value found := by
    rcases lookup_insert_cases found with ⟨-, rfl⟩ | ⟨-, kept⟩
    · exact backed
    · exact sound.backed key value kept
  unique holder left right value other foundLeft foundRight same := by
    rcases lookup_insert_cases foundLeft with ⟨at_left, rfl⟩ | ⟨off_left, keptLeft⟩
    · obtain ⟨rfl, rfl⟩ := Prod.mk.inj at_left
      rcases lookup_insert_cases foundRight with ⟨at_right, rfl⟩ | ⟨off_right, keptRight⟩
      · exact (Prod.mk.inj at_right).2.symm
      · exact absurd same.symm (fresh right other (fun equal => off_right (by rw [equal])) keptRight)
    · rcases lookup_insert_cases foundRight with ⟨at_right, rfl⟩ | ⟨off_right, keptRight⟩
      · obtain ⟨rfl, rfl⟩ := Prod.mk.inj at_right
        exact absurd same (fresh left value (fun equal => off_left (by rw [equal])) keptLeft)
      · exact sound.unique holder left right value other keptLeft keptRight same

theorem Rows.replace (sound : Rows stats accounts) (present : accounts.lookup (owner, id) = some row)
    (chain : row'.chain = row.chain) (symbol : row'.balance.symbol = row.balance.symbol)
    (nonneg : 0 ≤ row'.balance.amount) : Rows stats (accounts.insert (owner, id) row') := by
  have currency : currencyOf row'.chain row'.balance = currencyOf row.chain row.balance := by
    unfold currencyOf
    rw [chain, symbol]
  apply sound.insert nonneg
  · rw [currency, symbol]
    exact sound.backed _ _ present
  · intro other value different found same
    exact different (sound.unique owner other id value row found present (same.trans currency))

theorem total_held_replace (present : accounts.lookup (owner, id) = some row)
    (chain : row'.chain = row.chain) (symbol : row'.balance.symbol = row.balance.symbol)
    (currency : Currency) :
    total (held currency) (accounts.insert (owner, id) row') = total (held currency) accounts +
        if currencyOf row.chain row.balance = currency
        then row'.balance.amount - row.balance.amount else 0 := by
  have same : currencyOf row'.chain row'.balance = currencyOf row.chain row.balance := by
    unfold currencyOf
    rw [chain, symbol]
  rw [total_insert, measureAt_of_some present]
  unfold held
  rw [same]
  split_ifs
  · omega
  · omega

/-- Rows stay sound as long as the currencies keep their symbols. -/
theorem Rows.setStats (sound : Rows stats accounts)
    {changed : AList fun _ : Currency => CurrencyStats}
    (kept : ∀ currency stat, stats.lookup currency = some stat →
      ∃ other, changed.lookup currency = some other ∧ other.supply.symbol = stat.supply.symbol) :
    Rows changed accounts where
  nonneg := sound.nonneg
  backed key row found := by
    obtain ⟨stat, present, symbol⟩ := sound.backed key row found
    obtain ⟨other, still, same⟩ := kept _ stat present
    exact ⟨other, still, symbol.trans same.symm⟩
  unique := sound.unique

theorem Rows.insertStat (sound : Rows stats accounts) {currency : Currency}
    (found : stats.lookup currency = some stat)
    (symbol : changed.supply.symbol = stat.supply.symbol) :
    Rows (stats.insert currency changed) accounts := by
  apply sound.setStats
  intro other value present
  by_cases same : other = currency
  · subst same
    cases found.symm.trans present
    exact ⟨changed, lookup_insert _, symbol⟩
  · exact ⟨value, (lookup_insert_ne same).trans present, rfl⟩

end Rows

/-! ### What moves -/

variable {env : Environment} {tables result : Tables} {actors : List AccountName}
  {owner : AccountName} {chain : Name} {value quantity : Asset}

/-- Settling a holder keeps the balances, the currencies and the block. -/
theorem settleUser_effect (settled : settleUser env owner chain value tables = .ok result) :
    ∃ id row row', tables.find owner (currencyOf chain value) = some (id, row) ∧
      result.accounts = tables.accounts.insert (owner, id) row' ∧
      row'.balance = row.balance ∧ row'.chain = row.chain ∧ result.stats = tables.stats := by
  obtain ⟨⟨id, row⟩, found, settled⟩ := of_row settled
  obtain ⟨-, settled⟩ := of_assert settled
  obtain ⟨stat, -, settled⟩ := of_row settled
  obtain ⟨⟨records, walk⟩, -, settled⟩ := of_bind settled
  obtain ⟨reward, -, settled⟩ := of_bind settled
  cases settled
  exact ⟨id, row, _, found, rfl, rfl, rfl, rfl⟩

/-- The balances after an amount of a currency is added to those of an owner. -/
structure Moved (currency : Currency) (amount : Int) (before after : Tables) : Prop where
  stats : after.stats = before.stats
  rows : Rows before.stats before.accounts → Rows after.stats after.accounts
  total : ∀ other, total (held other) after.accounts =
    total (held other) before.accounts + if currency = other then amount else 0

theorem Moved.trans {currency : Currency} {first second : Int}
    (left : Moved currency first before middle) (right : Moved currency second middle after) :
    Moved currency (first + second) before after where
  stats := right.stats.trans left.stats
  rows sound := right.rows (left.rows sound)
  total other := by
    rw [right.total, left.total]
    split_ifs
    · omega
    · omega

theorem Moved.setAccount {currency : Currency} {id : Nat} {row : Account}
    (found : tables.find owner currency = some (id, row)) (row' : Account)
    (accounts : after.accounts = tables.accounts.insert (owner, id) row')
    (stats : after.stats = tables.stats) (chain : row'.chain = row.chain)
    (symbol : row'.balance.symbol = row.balance.symbol)
    (changed : row'.balance.amount = row.balance.amount + amount)
    (nonneg : 0 ≤ row.balance.amount → 0 ≤ row'.balance.amount) :
    Moved currency amount tables after := by
  obtain ⟨present, rfl⟩ := lookup_of_find found
  refine ⟨stats, fun sound => ?_, fun other => ?_⟩
  · rw [stats, accounts]
    exact sound.replace present chain symbol (nonneg (sound.nonneg _ _ present))
  · rw [accounts, total_held_replace present chain symbol, changed]
    split_ifs
    · omega
    · rfl

theorem moved_of_settleUser (settled : settleUser env owner chain value tables = .ok result) :
    Moved (currencyOf chain value) 0 tables result := by
  obtain ⟨id, row, row', found, accounts, balance, sameChain, stats⟩ := settleUser_effect settled
  apply Moved.setAccount found row' accounts stats sameChain
  · rw [balance]
  · rw [balance, add_zero]
  · intro nonneg
    rwa [balance]

theorem moved_of_subBalance (subtracted : subBalance env owner chain value tables = .ok result) :
    Moved (currencyOf chain value) (-value.amount) tables result := by
  obtain ⟨middle, settled, subtracted⟩ := of_bind subtracted
  obtain ⟨⟨id, row⟩, found, subtracted⟩ := of_row subtracted
  obtain ⟨enough, subtracted⟩ := of_assert subtracted
  obtain ⟨-, subtracted⟩ := of_assert subtracted
  obtain ⟨balance, less, subtracted⟩ := of_bind subtracted
  obtain ⟨rfl, -, -, -⟩ := AssetLib.eq_of_sub less
  cases subtracted
  have moved := (moved_of_settleUser settled).trans
    (Moved.setAccount found
      { row with balance := ⟨row.balance.amount - value.amount, row.balance.symbol⟩ }
      (Tables.accounts_setAccount middle owner id _) rfl rfl rfl (sub_eq_add_neg _ _)
      fun _ => sub_nonneg.mpr enough)
  rwa [zero_add] at moved

theorem moved_of_addBalance (exists_ : tables.stats.lookup (currencyOf chain value) = some stat)
    (symbol : value.symbol = stat.supply.symbol) (nonneg : 0 ≤ value.amount)
    (added : addBalance env owner chain value tables = .ok result) :
    Moved (currencyOf chain value) value.amount tables result := by
  unfold addBalance at added
  split at added
  next missing =>
    obtain ⟨unused, added⟩ := of_assert added
    cases added
    refine ⟨rfl, fun sound => ?_, fun other => ?_⟩
    · exact sound.insert nonneg ⟨stat, exists_, symbol⟩ fun _ _ _ present =>
        ne_of_find_none missing present
    · show total (held other) (tables.accounts.insert _ _) = _
      rw [total_insert, measureAt_of_none unused, sub_zero]
      rfl
  next =>
    obtain ⟨middle, settled, added⟩ := of_bind added
    obtain ⟨⟨id, row⟩, found, added⟩ := of_row added
    obtain ⟨balance, more, added⟩ := of_bind added
    obtain ⟨rfl, -, -, -⟩ := AssetLib.eq_of_add more
    cases added
    have moved := (moved_of_settleUser settled).trans
      (Moved.setAccount found
        { row with balance := ⟨row.balance.amount + value.amount, row.balance.symbol⟩ }
        (Tables.accounts_setAccount middle owner id _) rfl rfl rfl rfl
        fun kept => add_nonneg kept nonneg)
    rwa [zero_add] at moved

/-! ### Actions -/

theorem transfer_cases
    (ran : transfer env actors sender recipient chain quantity memo tables = .ok result) :
    ∃ stat middle, tables.stats.lookup (currencyOf chain quantity) = some stat ∧
      quantity.symbol = stat.supply.symbol ∧ 0 < quantity.amount ∧
      subBalance env sender chain quantity tables = .ok middle ∧
      addBalance env recipient chain quantity middle = .ok result := by
  obtain ⟨-, ran⟩ := of_assert ran
  obtain ⟨-, ran⟩ := of_auth ran
  obtain ⟨-, ran⟩ := of_assert ran
  obtain ⟨stat, found, ran⟩ := of_row ran
  obtain ⟨-, ran⟩ := of_assert ran
  obtain ⟨positive, ran⟩ := of_assert ran
  obtain ⟨symbol, ran⟩ := of_assert ran
  obtain ⟨-, ran⟩ := of_assert ran
  obtain ⟨-, ran⟩ := of_assert ran
  obtain ⟨middle, subtracted, added⟩ := of_bind ran
  exact ⟨stat, middle, found, symbol, positive, subtracted, added⟩

theorem trade_cases
    (ran : trade env actors sender recipient chain quantity type memo tables = .ok (result, sent)) :
    result = tables ∨
      transfer env actors sender recipient chain quantity memo tables = .ok result := by
  unfold trade at ran
  split at ran
  · obtain ⟨-, ran⟩ := of_assert ran
    cases ran
    exact .inl rfl
  · obtain ⟨middle, transferred, ran⟩ := of_bind ran
    obtain ⟨-, ran⟩ := of_assert ran
    obtain ⟨_, -, ran⟩ := of_bind ran
    cases ran
    exact .inr transferred
  · obtain ⟨middle, transferred, ran⟩ := of_bind ran
    obtain ⟨-, ran⟩ := of_assert ran
    obtain ⟨_, -, ran⟩ := of_bind ran
    cases ran
    exact .inr transferred
  · cases ran

section

variable (conserved : Conserved tables)

include conserved

theorem Conserved.move {currency : Currency} (moved : Moved currency 0 tables result) :
    Conserved result where
  rows := moved.rows conserved.rows
  key other stat found := by
    rw [moved.stats] at found
    exact conserved.key other stat found
  supply other stat found := by
    rw [moved.stats] at found
    rw [conserved.supply other stat found, moved.total, ite_self, add_zero]
  bounded other stat found := by
    rw [moved.stats] at found
    exact conserved.bounded other stat found

theorem Conserved.setSupply {currency : Currency} (found : tables.stats.lookup currency = some stat)
    (moved : Moved currency amount (tables.setStat currency changed) result)
    (symbol : changed.supply.symbol = stat.supply.symbol) (chain : changed.chain = stat.chain)
    (supply : changed.supply.amount = stat.supply.amount + amount)
    (bounded : 0 ≤ changed.supply.amount ∧ changed.supply.amount ≤ changed.maxSupply.amount ∧
      changed.maxSupply.amount < 2 ^ 63) :
    Conserved result := by
  have lookup (other : Currency) (value : CurrencyStats)
      (present : result.stats.lookup other = some value) :
      other = currency ∧ value = changed ∨
        other ≠ currency ∧ tables.stats.lookup other = some value := by
    rw [moved.stats] at present
    exact lookup_insert_cases present
  refine ⟨moved.rows (conserved.rows.insertStat found symbol), ?_, ?_, ?_⟩
  · intro other value present
    rcases lookup other value present with ⟨rfl, rfl⟩ | ⟨different, kept⟩
    · rw [← conserved.key _ _ found]
      unfold currencyOf
      rw [chain, symbol]
    · exact conserved.key other value kept
  · intro other value present
    rw [moved.total]
    rcases lookup other value present with ⟨rfl, rfl⟩ | ⟨different, kept⟩
    · rw [supply, if_pos rfl, conserved.supply _ _ found]
      rfl
    · rw [if_neg (Ne.symm different), add_zero]
      exact conserved.supply other value kept
  · intro other value present
    rcases lookup other value present with ⟨rfl, rfl⟩ | ⟨different, kept⟩
    · exact bounded
    · exact conserved.bounded other value kept

theorem conserved_of_issue
    (ran : issue env actors chain recipient quantity memo tables = .ok (result, sent)) :
    Conserved result := by
  obtain ⟨-, ran⟩ := of_assert ran
  obtain ⟨-, ran⟩ := of_assert ran
  obtain ⟨stat, found, ran⟩ := of_row ran
  obtain ⟨-, ran⟩ := of_auth ran
  obtain ⟨-, ran⟩ := of_assert ran
  obtain ⟨positive, ran⟩ := of_assert ran
  obtain ⟨symbol, ran⟩ := of_assert ran
  obtain ⟨available, ran⟩ := of_assert ran
  obtain ⟨supply, more, ran⟩ := of_bind ran
  obtain ⟨rfl, -, -, -⟩ := AssetLib.eq_of_add more
  obtain ⟨after, added, ran⟩ := of_bind ran
  cases ran
  obtain ⟨nonneg, below, fits⟩ := conserved.bounded _ _ found
  rw [toInt64_of_lt (by omega) (by omega)] at available
  have written := lookup_insert (a := currencyOf chain quantity) (b := { stat with
    totalMineage := stat.mineageAt tables.blockNum
    totalMineageUpdateHeight := tables.blockNum
    supply := ⟨stat.supply.amount + quantity.amount, stat.supply.symbol⟩ }) tables.stats
  apply conserved.setSupply found (moved_of_addBalance written symbol positive.le added) rfl rfl rfl
  refine ⟨?_, ?_, fits⟩
  · exact add_nonneg nonneg positive.le
  · show stat.supply.amount + quantity.amount ≤ stat.maxSupply.amount
    omega

theorem conserved_of_destroy
    (ran : destroy env actors chain sender quantity memo tables = .ok result) :
    Conserved result := by
  obtain ⟨-, ran⟩ := of_auth ran
  obtain ⟨-, ran⟩ := of_assert ran
  obtain ⟨-, ran⟩ := of_assert ran
  obtain ⟨stat, found, ran⟩ := of_row ran
  obtain ⟨-, ran⟩ := of_assert ran
  obtain ⟨positive, ran⟩ := of_assert ran
  obtain ⟨-, ran⟩ := of_assert ran
  obtain ⟨enough, ran⟩ := of_assert ran
  obtain ⟨supply, less, ran⟩ := of_bind ran
  obtain ⟨rfl, -, -, -⟩ := AssetLib.eq_of_sub less
  obtain ⟨nonneg, below, fits⟩ := conserved.bounded _ _ found
  apply conserved.setSupply found (moved_of_subBalance ran) rfl rfl (sub_eq_add_neg _ _)
  refine ⟨?_, ?_, fits⟩
  · exact sub_nonneg.mpr enough
  · show stat.supply.amount - quantity.amount ≤ stat.maxSupply.amount
    omega

theorem conserved_of_transfer
    (ran : transfer env actors sender recipient chain quantity memo tables = .ok result) :
    Conserved result := by
  obtain ⟨stat, middle, found, symbol, positive, subtracted, added⟩ := transfer_cases ran
  have taken := moved_of_subBalance subtracted
  rw [← taken.stats] at found
  have moved := taken.trans (moved_of_addBalance found symbol positive.le added)
  rw [neg_add_cancel] at moved
  exact conserved.move moved

theorem conserved_of_trade
    (ran : trade env actors sender recipient chain quantity type memo tables = .ok (result, sent)) :
    Conserved result := by
  rcases trade_cases ran with rfl | transferred
  · exact conserved
  · exact conserved_of_transfer conserved transferred

theorem conserved_of_claim {receiver : AccountName}
    (ran : claim env actors chain quantity receiver tables = .ok (result, sent)) :
    Conserved result := by
  obtain ⟨-, ran⟩ := of_auth ran
  obtain ⟨-, ran⟩ := of_assert ran
  obtain ⟨_, -, ran⟩ := of_row ran
  obtain ⟨_, -, ran⟩ := of_row ran
  obtain ⟨middle, settled, ran⟩ := of_bind ran
  obtain ⟨⟨id, row⟩, found, ran⟩ := of_row ran
  obtain ⟨-, ran⟩ := of_assert ran
  obtain ⟨_, -, ran⟩ := of_bind ran
  obtain ⟨-, ran⟩ := of_assert ran
  cases ran
  apply (conserved.move (moved_of_settleUser settled)).move
  exact Moved.setAccount found { row with reward := env.coreAsset 0 }
    (Tables.accounts_setAccount middle receiver id _) rfl rfl rfl (add_zero _).symm fun kept => kept

theorem conserved_of_create {issuer sideAccount : AccountName} {sideAction : Name}
    {maximumSupply : Asset}
    (ran : create env actors issuer chain sideAccount sideAction maximumSupply tables = .ok result) :
    Conserved result := by
  obtain ⟨-, ran⟩ := of_auth ran
  obtain ⟨-, ran⟩ := of_assert ran
  obtain ⟨valid, ran⟩ := of_assert ran
  obtain ⟨positive, ran⟩ := of_assert ran
  obtain ⟨missing, ran⟩ := of_assert ran
  cases ran
  have fits := (env.amountFits_lt _ (Bool.and_eq_true_iff.mp valid).1).2
  -- every row is of a currency that existed before
  have empty : total (held (currencyOf chain maximumSupply)) tables.accounts = 0 := by
    apply List.sum_eq_zero
    intro amount mem
    obtain ⟨⟨key, row⟩, present, rfl⟩ := List.mem_map.mp mem
    obtain ⟨stat, backed, -⟩ := conserved.rows.backed key row (mem_lookup_iff.mpr present)
    apply if_neg
    intro same
    rw [same, missing] at backed
    cases backed
  refine ⟨conserved.rows.setStats fun other value present => ?_, fun other value present => ?_,
    fun other value present => ?_, fun other value present => ?_⟩
  · have different : other ≠ currencyOf chain maximumSupply := by
      rintro rfl
      rw [missing] at present
      cases present
    exact ⟨value, (lookup_insert_ne different).trans present, rfl⟩
  · rcases lookup_insert_cases present with ⟨rfl, rfl⟩ | ⟨-, kept⟩
    · rfl
    · exact conserved.key other value kept
  · rcases lookup_insert_cases present with ⟨rfl, rfl⟩ | ⟨-, kept⟩
    · exact empty.symm
    · exact conserved.supply other value kept
  · rcases lookup_insert_cases present with ⟨rfl, rfl⟩ | ⟨-, kept⟩
    · exact ⟨le_rfl, positive.le, fits⟩
    · exact conserved.bounded other value kept

end

/-! ### Actions on rewards -/

/-- What the rewards leave alone in the row of a currency. -/
def CurrencyStats.issued (stat : CurrencyStats) : Asset × Asset × Name :=
  (stat.supply, stat.maxSupply, stat.chain)

structure SameSupplies (before after : Tables) : Prop where
  accounts : after.accounts = before.accounts
  stats : ∀ currency, (after.stats.lookup currency).map CurrencyStats.issued =
    (before.stats.lookup currency).map CurrencyStats.issued

theorem SameSupplies.refl (tables : Tables) : SameSupplies tables tables := ⟨rfl, fun _ => rfl⟩

theorem SameSupplies.trans (left : SameSupplies before middle) (right : SameSupplies middle after) :
    SameSupplies before after :=
  ⟨right.accounts.trans left.accounts,
    fun currency => (right.stats currency).trans (left.stats currency)⟩

theorem SameSupplies.setStat {currency : Currency}
    (found : tables.stats.lookup currency = some stat)
    (accounts : result.accounts = tables.accounts)
    (stats : result.stats = tables.stats.insert currency changed)
    (issued : changed.issued = stat.issued) : SameSupplies tables result where
  accounts := accounts
  stats other := by
    rw [stats]
    by_cases same : other = currency
    · subst same
      rw [lookup_insert, found, Option.map_some, Option.map_some, issued]
    · rw [lookup_insert_ne same]

theorem Conserved.of_sameSupplies (conserved : Conserved tables)
    (same : SameSupplies tables result) : Conserved result := by
  have earlier (currency : Currency) (stat : CurrencyStats)
      (found : result.stats.lookup currency = some stat) :
      ∃ old, tables.stats.lookup currency = some old ∧ old.supply = stat.supply ∧
        old.maxSupply = stat.maxSupply ∧ old.chain = stat.chain := by
    have equal := same.stats currency
    rw [found, Option.map_some] at equal
    obtain ⟨old, present, issued⟩ := Option.map_eq_some_iff.mp equal.symm
    obtain ⟨supply, issued⟩ := Prod.mk.inj issued
    exact ⟨old, present, supply, Prod.mk.inj issued⟩
  refine ⟨?_, fun currency stat found => ?_, fun currency stat found => ?_,
    fun currency stat found => ?_⟩
  · rw [same.accounts]
    apply conserved.rows.setStats
    intro currency stat found
    have equal := same.stats currency
    rw [found, Option.map_some] at equal
    obtain ⟨other, present, issued⟩ := Option.map_eq_some_iff.mp equal
    exact ⟨other, present, by rw [(Prod.mk.inj issued).1]⟩
  · obtain ⟨old, present, supply, -, chain⟩ := earlier currency stat found
    rw [← supply, ← chain]
    exact conserved.key currency old present
  · obtain ⟨old, present, supply, -, -⟩ := earlier currency stat found
    rw [same.accounts, ← supply]
    exact conserved.supply currency old present
  · obtain ⟨old, present, supply, maxSupply, -⟩ := earlier currency stat found
    rw [← supply, ← maxSupply]
    exact conserved.bounded currency old present

theorem sameSupplies_of_settleCurrency {reward : RewardCurrency}
    (ran : settleCurrency env reward tables = .ok result) : SameSupplies tables result := by
  unfold settleCurrency at ran
  cases found : tables.stats.lookup (currencyOf reward.chain reward.supply) with
  | none =>
    rw [found] at ran
    cases ran
    exact .refl tables
  | some stat =>
    rw [found] at ran
    obtain ⟨-, ran⟩ := of_assert ran
    obtain ⟨records, -, ran⟩ := of_bind ran
    cases ran
    exact SameSupplies.setStat found rfl rfl rfl

theorem sameSupplies_of_settleCurrencies (ran : settleCurrencies env rewards tables = .ok result) :
    SameSupplies tables result := by
  induction rewards generalizing tables with
  | nil =>
    cases ran
    exact .refl _
  | cons reward rewards ih =>
    obtain ⟨middle, first, rest⟩ := of_bind ran
    exact (sameSupplies_of_settleCurrency first).trans (ih rest)

theorem sameSupplies_of_devide {sum : Nat}
    (ran : devide env quantity sum rewards tables = .ok result) : SameSupplies tables result := by
  induction rewards generalizing tables with
  | nil =>
    cases ran
    exact .refl _
  | cons reward rewards ih =>
    obtain ⟨stat, -, ran⟩ := of_row ran
    obtain ⟨record, -, ran⟩ := of_row ran
    obtain ⟨pool, -, rest⟩ := of_bind ran
    have same := ih rest
    exact ⟨same.accounts, same.stats⟩

theorem sameSupplies_of_rewardmine (ran : rewardmine env actors quantity tables = .ok result) :
    SameSupplies tables result := by
  obtain ⟨-, ran⟩ := of_auth ran
  obtain ⟨sum, -, ran⟩ := of_bind ran
  split_ifs at ran
  · cases ran
    exact .refl _
  · exact sameSupplies_of_devide ran

theorem sameSupplies_of_addreward {rewardNow : Int}
    (ran : addreward env actors chain quantity rewardNow tables = .ok result) :
    SameSupplies tables result := by
  obtain ⟨-, ran⟩ := of_auth ran
  obtain ⟨-, ran⟩ := of_assert ran
  obtain ⟨stat, found, ran⟩ := of_row ran
  obtain ⟨-, ran⟩ := of_assert ran
  obtain ⟨-, ran⟩ := of_assert ran
  cases ran
  exact SameSupplies.setStat found rfl rfl rfl

theorem sameSupplies_of_setweight {weight : Nat}
    (ran : setweight env actors chain quantity weight tables = .ok result) :
    SameSupplies tables result := by
  obtain ⟨-, ran⟩ := of_auth ran
  obtain ⟨stat, found, ran⟩ := of_row ran
  cases ran
  exact SameSupplies.setStat found rfl rfl rfl

/-! ### Runs -/

theorem ok_of_silent {ran : Checked Tables}
    (silenced : silent ran = .ok (result, sent)) : ran = .ok result := by
  obtain ⟨_, done, returned⟩ := of_bind silenced
  cases returned
  exact done

theorem conserved_of_step {call : Call} (conserved : Conserved tables)
    (ran : step env tables call = .ok result) : Conserved result := by
  obtain ⟨⟨after, sent⟩, executed, returned⟩ := of_bind ran
  cases returned
  cases call with
  | on =>
    obtain ⟨-, executed⟩ := of_auth executed
    obtain ⟨_, -, executed⟩ := of_row executed
    cases executed
    exact conserved
  | create => exact conserved_of_create conserved (ok_of_silent executed)
  | issue => exact conserved_of_issue conserved executed
  | destroy => exact conserved_of_destroy conserved (ok_of_silent executed)
  | transfer => exact conserved_of_transfer conserved (ok_of_silent executed)
  | trade => exact conserved_of_trade conserved executed
  | addreward => exact conserved.of_sameSupplies (sameSupplies_of_addreward (ok_of_silent executed))
  | rewardmine => exact conserved.of_sameSupplies (sameSupplies_of_rewardmine (ok_of_silent executed))
  | claim => exact conserved_of_claim conserved executed
  | settlemine =>
    obtain ⟨-, settled⟩ := of_auth (ok_of_silent executed)
    exact conserved.of_sameSupplies (sameSupplies_of_settleCurrencies settled)
  | activemine =>
    obtain ⟨-, activated⟩ := of_auth (ok_of_silent executed)
    cases activated
    exact conserved.of_sameSupplies ⟨rfl, fun _ => rfl⟩
  | setweight => exact conserved.of_sameSupplies (sameSupplies_of_setweight (ok_of_silent executed))
  | nextBlock =>
    cases executed
    exact conserved.of_sameSupplies ⟨rfl, fun _ => rfl⟩

theorem Conserved.empty : Conserved {} where
  rows := ⟨nofun, nofun, nofun⟩
  key := nofun
  supply := nofun
  bounded := nofun

/-- Every run conserves the tokens of every currency. -/
theorem conserved_of_run {visited : List Tables} {last : Tables}
    (run : Run (Taken (step env) fun _ _ => True) {} visited last) : Conserved last := by
  apply Taken.invariant Conserved.empty _ run
  intro tables call next conserved _ stepped
  exact conserved_of_step conserved stepped

/-- The account 5 issues 10 tokens of the chain 7 and transfers 3 of them to the account 6. -/
theorem conserved_of_run_transfer :
    ∃ visited last, Run (Taken (step .bounded) fun _ _ => True) {} visited last ∧
      (last.find 6 (7, 1)).map (fun row => row.2.balance) = some ⟨3, 260⟩ ∧ Conserved last := by
  obtain ⟨visited, last, run, balance⟩ := @exists_run_of_replay _ _ _ (step .bounded)
    (fun _ _ => True) {} _
    [.create [7] 5 7 8 9 ⟨100, 260⟩, .nextBlock, .issue [5] 7 5 ⟨10, 260⟩ "", .nextBlock,
      .transfer [5] 5 6 7 ⟨3, 260⟩ ""]
    (fun last => (last.find 6 (7, 1)).map (fun row => row.2.balance) = some ⟨3, 260⟩) _
    (by decide +kernel)
  exact ⟨visited, last, run, balance, conserved_of_run run⟩

end CodexRelay.Contracts.RelayToken
