import CodexRelay.Chain.EosioContract.Model
import CodexRelay.Library.KeyedSum
import CodexRelay.Library.Outcome

/-!
Contract: what accounts pay for, and what they were billed.

Owns:
- `billed`, the sum of the billable sizes of the objects that an account pays for;
- `debt`, by how much this exceeds the `ram_usage` of the account;
- what billing does to the debt, and when it underflows.
-/

namespace CodexRelay.Chain

open Library Finset

variable {test : Prop} {code : ExceptionCode} {what : String} {κ : Type}

/-- The exception of `add_pending_ram_usage` for an account that gets back more than it was
billed. -/
def ramUnderflow : ChainException :=
  ⟨.transactionException, "Ram usage delta would underflow UINT64_MAX"⟩

def AccountMetadata.codeKey (metadata : AccountMetadata) : CodeKey :=
  (metadata.codeHash, metadata.vmType, metadata.vmVersion)

theorem assert_meets {α : Type} [Decidable test] {rest : Unit → Checked α}
    {allowed : ChainException → Prop} {post : α → Prop} (throws : ¬ test → allowed ⟨code, what⟩)
    (next : test → Meets allowed post (rest ())) :
    Meets allowed post (eosAssert test code what >>= rest) := by
  unfold eosAssert
  split_ifs with holds
  · exact next holds
  · exact throws holds

namespace ChainDb

variable {fc : FcFunctions} {db db' : ChainDb} {a : AccountName}

/-! ### What accounts pay for -/

def codeBytes (codes : AList fun _ : CodeKey => CodeObject) (metadata : AccountMetadata) : Nat :=
  if metadata.codeHash = 0 then 0
  else (codes.lookup metadata.codeKey).elim 0 fun entry =>
    entry.code.length * setcodeRamBytesMultiplier

inductive Part where
  | accounts
  | code
  | permissions
  | links
  | tables
  | keyValues
  | secondaries
  | transactions
deriving DecidableEq

instance : Fintype Part where
  elems := {.accounts, .code, .permissions, .links, .tables, .keyValues, .secondaries, .transactions}
  complete part := by cases part <;> decide

/-- The billable sizes of the objects of one kind that an account pays for. -/
def paidFor (fc : FcFunctions) (db : ChainDb) : Part → AccountName → Int
  | .accounts => paidBy (fun name _ => name)
      (fun _ account => overheadPerAccountRamBytes + account.abi.length) db.accounts
  | .code => paidBy (fun name _ => name) (fun _ metadata => codeBytes db.codes metadata)
      db.accountMetadata
  | .permissions => paidBy (fun _ permission => permission.owner)
      (fun _ permission => permission.auth.permissionRamBytes fc) db.permissions.rows
  | .links => paidBy (fun link _ => link.1) (fun _ _ => permissionLinkObjectSize) db.permissionLinks
  | .tables => paidBy (fun _ tid => tid.payer) (fun _ _ => tableIdObjectSize) db.tableIds.rows
  | .keyValues => paidBy (fun _ obj => obj.payer)
      (fun _ obj => obj.value.length + keyValueObjectSize) db.keyValues
  | .secondaries => paidBy (fun _ obj => obj.payer) (fun row _ => row.1.objectSize) db.secondaries
  | .transactions => paidBy (fun _ gto => gto.payer) (fun _ gto => gto.ramBytes)
      db.generatedTransactions

/-- The billable sizes of all objects that an account pays for. -/
def billed (fc : FcFunctions) (db : ChainDb) : AccountName → Int := ∑ part, db.paidFor fc part

/-- The `ram_usage` of an account; one that does not exist uses nothing. -/
def ramUsage (db : ChainDb) (account : AccountName) : Int :=
  (rowAt (fun _ usage => usage.ramUsage) db.resourceLimits.usage account : Nat)

def debt (fc : FcFunctions) (db : ChainDb) : AccountName → Int := db.billed fc - db.ramUsage

theorem paidFor_nonneg (part : Part) (a : AccountName) : 0 ≤ db.paidFor fc part a := by
  cases part <;> exact Int.natCast_nonneg _

theorem paidFor_le_billed (part : Part) (a : AccountName) :
    db.paidFor fc part a ≤ db.billed fc a := by
  rw [billed, Finset.sum_apply]
  exact single_le_sum (f := fun part => db.paidFor fc part a)
    (fun other _ => paidFor_nonneg other a) (mem_univ part)

theorem le_ramUsage {size : Int} (paid : size ≤ db.billed fc a) (solvent : db.debt fc a ≤ 0) :
    size ≤ db.ramUsage a := by
  simp only [debt, Pi.sub_apply] at solvent
  omega

/-! ### Billing -/

/-- The exception of a call that keeps the books: it underflows only for accounts with debts. -/
def Blames (fc : FcFunctions) (db : ChainDb) (refunded : List AccountName) (thrown : ChainException) :
    Prop :=
  thrown = ramUnderflow → ∃ a ∈ refunded, 0 < db.debt fc a

def Quiet {α : Type} (program : Checked α) : Prop := program ≠ .error ramUnderflow

def Charged (db : ChainDb) (account : AccountName) (delta : Int) (db' : ChainDb) : Prop :=
  ∃ resourceLimits, db' = { db with resourceLimits } ∧
    db'.ramUsage = db.ramUsage + Pi.single account delta

theorem Charged.eq_with {account : AccountName} {delta : Int}
    (charged : db.Charged account delta db') : ∃ resourceLimits, db' = { db with resourceLimits } :=
  charged.imp fun _ changes => changes.1

theorem addPendingRamUsage_meets (manager : ResourceLimits) (account : AccountName) (delta : Int) :
    Meets (fun thrown => thrown = ramUnderflow →
        (rowAt (fun _ usage => usage.ramUsage) manager.usage account : Int) + delta < 0)
      (fun manager' : ResourceLimits => ∀ other,
        (rowAt (fun _ usage => usage.ramUsage) manager'.usage other : Int) =
          rowAt (fun _ usage => usage.ramUsage) manager.usage other +
            (Pi.single account delta : AccountName → Int) other)
      (manager.addPendingRamUsage account delta) := by
  unfold ResourceLimits.addPendingRamUsage
  split_ifs with zero
  · subst zero
    intro other
    simp
  cases found : manager.usage.lookup account with
  | none =>
    unfold Database.get
    rw [found]
    exact fun underflow => nomatch congrArg ChainException.code underflow
  | some usage =>
    have current := rowAt_of_lookup (fun _ usage => usage.ramUsage) found
    rw [Database.get_eq_ok.mpr found, ok_bind]
    refine assert_meets (fun _ underflow => ?_) fun _ => assert_meets (fun uncovered _ => ?_)
      fun covered => ?_
    · exact absurd (congrArg ChainException.what underflow) (by decide)
    · rw [current]
      omega
    · intro other
      by_cases same : other = account
      · subst same
        rw [rowAt_of_lookup _ (AList.lookup_insert manager.usage), current, Pi.single_eq_same]
        dsimp only
        omega
      · rw [Pi.single_eq_of_ne same, add_zero]
        unfold rowAt
        rw [AList.lookup_insert_ne same]

/-! ### Programs that do not underflow -/

section Quiet

variable {α β : Type}

theorem quiet_ok (value : α) : Quiet (.ok value) := by
  simp [Quiet]

theorem quiet_error {thrown : ChainException} (other : thrown.code ≠ .transactionException) :
    Quiet (.error thrown : Checked α) := by
  intro underflow
  exact other (congrArg ChainException.code (Except.error.inj underflow))

theorem quiet_bind {program : Checked α} {next : α → Checked β}
    (first : Quiet program) (rest : ∀ value, Quiet (next value)) : Quiet (program >>= next) := by
  cases program with
  | error thrown => exact fun underflow => first (congrArg Except.error (Except.error.inj underflow))
  | ok value => exact rest value

theorem quiet_assert [Decidable test] (other : (⟨code, what⟩ : ChainException) ≠ ramUnderflow) :
    Quiet (eosAssert test code what) := by
  unfold eosAssert
  split_ifs
  · exact quiet_ok ()
  · exact fun underflow => other (Except.error.inj underflow)

theorem quiet_guard [Decidable test] {next : Unit → Checked β}
    (other : (⟨code, what⟩ : ChainException) ≠ ramUnderflow) (rest : ∀ value, Quiet (next value)) :
    Quiet (eosAssert test code what >>= next) :=
  quiet_bind (quiet_assert other) rest

theorem quiet_ite [Decidable test] {yes no : Checked α} (first : Quiet yes)
    (second : Quiet no) : Quiet (if test then yes else no) := by
  split_ifs
  · exact first
  · exact second

theorem quiet_forM {items : List β} {body : β → Checked PUnit}
    (each : ∀ item, Quiet (body item)) : Quiet (items.forM body) := by
  induction items with
  | nil => exact quiet_ok _
  | cons item items ih => exact quiet_bind (each item) fun _ => ih

theorem quiet_elim {found : Option α} {thrown : ChainException}
    (other : thrown.code ≠ .transactionException) :
    Quiet (found.elim (.error thrown) Except.ok) := by
  cases found with
  | none => exact quiet_error other
  | some value => exact quiet_ok value

section

variable [DecidableEq κ] {ρ : κ → Type} (table : AList ρ) (key : κ)

include table key

theorem quiet_get : Quiet (Database.get table key) := by
  unfold Database.get
  split
  · exact quiet_ok _
  · exact quiet_error (by decide)

theorem quiet_create (row : ρ key) : Quiet (Database.create table key row) := by
  unfold Database.create
  split
  · exact quiet_error (by decide)
  · exact quiet_ok _

end

theorem quiet_idCreate {ρ : Type} [DecidableEq κ] (key : ρ → κ) (table : IdTable ρ) (row : ρ) :
    Quiet (table.create key row) := by
  unfold IdTable.create
  split
  · exact quiet_error (by decide)
  · exact quiet_ok _

section

variable {program : Checked α} {refunded : List AccountName} (quiet : Quiet program)

include quiet

theorem Quiet.meets : Meets (db.Blames fc refunded) (fun value => program = .ok value) program :=
  .of_result fun _ ran underflow => absurd (underflow ▸ ran) quiet

theorem Quiet.next {rest : α → Checked β} {post : β → Prop}
    (next : ∀ value, program = .ok value → Meets (db.Blames fc refunded) post (rest value)) :
    Meets (db.Blames fc refunded) post (program >>= rest) :=
  quiet.meets.bind next

end

/-- An assertion other than the one on underflows, and what follows it. -/
theorem check_next [Decidable test] {rest : Unit → Checked β}
    {refunded : List AccountName} {post : β → Prop}
    (other : (⟨code, what⟩ : ChainException) ≠ ramUnderflow)
    (next : test → Meets (db.Blames fc refunded) post (rest ())) :
    Meets (db.Blames fc refunded) post (eosAssert test code what >>= rest) :=
  assert_meets (fun _ underflow => absurd underflow other) next

end Quiet

/-! ### Charges and refunds -/

section Charge

variable {before : ChainDb} {refunded : List AccountName} {account : AccountName} {delta size : Int}

theorem addRamUsage_meets
    (blamed : db.ramUsage account + delta < 0 → ∃ a ∈ refunded, 0 < before.debt fc a) :
    Meets (before.Blames fc refunded) (db.Charged account delta) (db.addRamUsage account delta) := by
  unfold addRamUsage
  refine ((addPendingRamUsage_meets db.resourceLimits account delta).mono
    (fun thrown below underflow => blamed (below underflow)) fun _ changed => changed).bind ?_
  intro resourceLimits changed
  exact ⟨resourceLimits, rfl, funext changed⟩

theorem charge_meets (positive : 0 ≤ delta) :
    Meets (before.Blames fc refunded) (db.Charged account delta) (db.addRamUsage account delta) := by
  refine addRamUsage_meets fun below => ?_
  have : 0 ≤ db.ramUsage account := Int.natCast_nonneg _
  omega

/-- An account gets back at most the size of what it paid for before. -/
theorem refund_meets (paid : size ≤ before.billed fc account) (usage : db.ramUsage = before.ramUsage)
    (enough : -size ≤ delta) (member : account ∈ refunded) :
    Meets (before.Blames fc refunded) (db.Charged account delta) (db.addRamUsage account delta) := by
  refine addRamUsage_meets fun below => ⟨account, member, ?_⟩
  by_contra solvent
  have billed := le_ramUsage paid (by omega)
  rw [← usage] at billed
  omega

/-- An account gets back the size of an object that it pays for. -/
theorem giveBack_meets {size : Nat} (paid : (size : Int) ≤ db.billed fc account)
    (member : account ∈ refunded) :
    Meets (db.Blames fc refunded) (db.Charged account (-size)) (db.addRamUsage account (-size)) :=
  refund_meets paid rfl le_rfl member

theorem quiet_checkDbUsage (context : ApplyContext) (payer : AccountName) (delta : Int) :
    Quiet (checkDbUsage context payer delta) :=
  quiet_ite (quiet_guard nofun fun _ => quiet_assert nofun) (quiet_ok ())

/-- The checks of `update_db_usage` do not change what it bills. -/
theorem updateDbUsage_meets {context : ApplyContext}
    (bills : Meets (before.Blames fc refunded) (db.Charged account delta)
      (db.addRamUsage account delta)) :
    Meets (before.Blames fc refunded) (db.Charged account delta)
      (db.updateDbUsage context account delta) := by
  unfold updateDbUsage
  exact (quiet_checkDbUsage context account delta).meets.bind fun _ _ => bills

end Charge

/-! ### Changes of one table -/

/-- What is owed afterwards and was not before; the code that accounts run is the same. -/
structure Owing (fc : FcFunctions) (before after : ChainDb) (owed : AccountName → Int) : Prop where
  debt : after.debt fc = before.debt fc + owed
  metadata : after.accountMetadata = before.accountMetadata
  codes : after.codes = before.codes

abbrev Balanced (fc : FcFunctions) (before after : ChainDb) : Prop := Owing fc before after 0

theorem Balanced.refl (fc : FcFunctions) (db : ChainDb) : Balanced fc db db :=
  ⟨(add_zero _).symm, rfl, rfl⟩

theorem Owing.trans {middle : ChainDb} {owed more total : AccountName → Int}
    (first : Owing fc db middle owed) (second : Owing fc middle db' more)
    (adds : owed + more = total) : Owing fc db db' total where
  debt := by rw [second.debt, first.debt, add_assoc, adds]
  metadata := second.metadata.trans first.metadata
  codes := second.codes.trans first.codes

theorem Owing.of_eq {owed owed' : AccountName → Int} (owing : Owing fc db db' owed)
    (same : owed = owed') : Owing fc db db' owed' :=
  same ▸ owing

theorem Charged.owing {account : AccountName} {delta : Int} (charged : db.Charged account delta db')
    (fc : FcFunctions) : Owing fc db db' (-Pi.single account delta) := by
  obtain ⟨resourceLimits, rfl, usage⟩ := charged
  have same : ({ db with resourceLimits } : ChainDb).billed fc = db.billed fc := rfl
  refine ⟨?_, rfl, rfl⟩
  rw [debt, usage, same, debt]
  abel

/-- When only one kind of objects changes, the debts change by what is paid for it. -/
theorem debt_of_part (part : Part)
    (others : ∀ other ≠ part, db'.paidFor fc other = db.paidFor fc other)
    (usage : db'.ramUsage = db.ramUsage) :
    db'.debt fc = db.debt fc + (db'.paidFor fc part - db.paidFor fc part) := by
  have rest : ∑ other ∈ Finset.univ.erase part, db'.paidFor fc other =
      ∑ other ∈ Finset.univ.erase part, db.paidFor fc other :=
    sum_congr rfl fun other member => others other (ne_of_mem_erase member)
  have after := add_sum_erase Finset.univ (db'.paidFor fc) (mem_univ part)
  have before := add_sum_erase Finset.univ (db.paidFor fc) (mem_univ part)
  rw [debt, debt, usage, billed, billed, ← after, ← before, rest]
  abel

section Tables

variable (fc db)

theorem debt_accounts (accounts : AList fun _ : AccountName => AccountObject) :
    ({ db with accounts } : ChainDb).debt fc = db.debt fc +
      (({ db with accounts } : ChainDb).paidFor fc .accounts - db.paidFor fc .accounts) := by
  refine debt_of_part .accounts (fun other different => ?_) rfl
  cases other <;> first | rfl | cases different rfl

theorem debt_code (codes : AList fun _ : CodeKey => CodeObject)
    (accountMetadata : AList fun _ : AccountName => AccountMetadata) :
    ({ db with codes, accountMetadata } : ChainDb).debt fc = db.debt fc +
      (({ db with codes, accountMetadata } : ChainDb).paidFor fc .code - db.paidFor fc .code) := by
  refine debt_of_part .code (fun other different => ?_) rfl
  cases other <;> first | rfl | cases different rfl

theorem debt_permissions (permissions : IdTable PermissionObject) :
    ({ db with permissions } : ChainDb).debt fc = db.debt fc +
      (({ db with permissions } : ChainDb).paidFor fc .permissions - db.paidFor fc .permissions) := by
  refine debt_of_part .permissions (fun other different => ?_) rfl
  cases other <;> first | rfl | cases different rfl

theorem debt_permissionLinks
    (permissionLinks : AList fun _ : AccountName × AccountName × ActionName => PermissionName) :
    ({ db with permissionLinks } : ChainDb).debt fc = db.debt fc +
      (({ db with permissionLinks } : ChainDb).paidFor fc .links - db.paidFor fc .links) := by
  refine debt_of_part .links (fun other different => ?_) rfl
  cases other <;> first | rfl | cases different rfl

theorem debt_tableIds (tableIds : IdTable TableIdObject) :
    ({ db with tableIds } : ChainDb).debt fc = db.debt fc +
      (({ db with tableIds } : ChainDb).paidFor fc .tables - db.paidFor fc .tables) := by
  refine debt_of_part .tables (fun other different => ?_) rfl
  cases other <;> first | rfl | cases different rfl

theorem debt_keyValues (keyValues : AList fun _ : Nat × Nat => KeyValueObject) :
    ({ db with keyValues } : ChainDb).debt fc = db.debt fc +
      (({ db with keyValues } : ChainDb).paidFor fc .keyValues - db.paidFor fc .keyValues) := by
  refine debt_of_part .keyValues (fun other different => ?_) rfl
  cases other <;> first | rfl | cases different rfl

theorem debt_secondaries
    (secondaries : AList fun _ : SecondaryType × Nat × Nat => SecondaryObject) :
    ({ db with secondaries } : ChainDb).debt fc = db.debt fc +
      (({ db with secondaries } : ChainDb).paidFor fc .secondaries - db.paidFor fc .secondaries) := by
  refine debt_of_part .secondaries (fun other different => ?_) rfl
  cases other <;> first | rfl | cases different rfl

theorem debt_generatedTransactions
    (generatedTransactions : AList fun _ : AccountName × Nat => GeneratedTransaction) :
    ({ db with generatedTransactions } : ChainDb).debt fc = db.debt fc +
      (({ db with generatedTransactions } : ChainDb).paidFor fc .transactions - db.paidFor fc .transactions) := by
  refine debt_of_part .transactions (fun other different => ?_) rfl
  cases other <;> first | rfl | cases different rfl

end Tables

end ChainDb

end CodexRelay.Chain
