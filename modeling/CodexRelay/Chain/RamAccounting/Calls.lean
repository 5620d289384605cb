import CodexRelay.Chain.EosioContract.PermissionForest
import CodexRelay.Chain.RamAccounting.Debt

/-!
Contract: the calls that a contract and the native actions make leave no debts.

Owns, for each call that stores, changes or removes rows, that the debts of all accounts are the
same afterwards, and that it underflows only for an account that it pays back and that had a debt
before. The calls are:
- those of `apply_context` on the rows of contracts;
- scheduling, replacing, cancelling and retiring deferred transactions. The payer of a transaction
  that is replaced is paid back only with `replace_deferred`; before, the chain records what it owes;
- `setabi`, `updateauth`, `deleteauth`, `linkauth`, `unlinkauth` and `canceldelay`, and the part of
  `newaccount` after the account is stored.
-/

namespace CodexRelay.Chain

open Library

structure Host.Quiet (host : Host) : Prop where
  validateWasm (code : Bytes) : ChainDb.Quiet (host.validateWasm code)
  checkAuthorization (db : ChainDb) (receiver : AccountName) (actions : List Action) (delay : Nat) :
    ChainDb.Quiet (host.checkAuthorization db receiver actions delay)
  checkActorList (actors : List AccountName) : ChainDb.Quiet (host.checkActorList actors)
  addNetUsage (usage : Nat) : ChainDb.Quiet (host.addNetUsage usage)

namespace ChainDb

variable {fc : FcFunctions} {db db' : ChainDb} {context : ApplyContext} {payer : AccountName}
  {refunded : List AccountName}

variable {scope table id : Nat} {tid : TableIdObject} {row : Nat × Nat}

variable {code : AccountName} {κ : Type} {buffer : Bytes} {secondaryKey : Nat}

/-- A call that leaves no debts, and underflows only for accounts that it pays back. -/
def Keeps (fc : FcFunctions) (db : ChainDb) (refunded : List AccountName)
    (program : Checked ChainDb) : Prop :=
  Meets (db.Blames fc refunded) (Balanced fc db) program

/-- Who is to blame after the first part of a call was to blame before. -/
theorem Keeps.after {middle : ChainDb} {program : Checked ChainDb}
    (first : Balanced fc db middle) (rest : Keeps fc middle refunded program) :
    Keeps fc db refunded program := by
  refine Meets.mono rest (fun thrown blames underflow => ?_) fun final second =>
    first.trans second (add_zero 0)
  have same := first.debt
  rw [add_zero] at same
  rw [← same]
  exact blames underflow

/-! ### Tables -/

theorem findOrCreateTable_meets :
    Meets (db.Blames fc refunded) (fun result : Nat × ChainDb => Balanced fc db result.2)
      (db.findOrCreateTable context code scope table payer) := by
  unfold findOrCreateTable
  cases db.tableIds.findBy TableIdObject.byCodeScopeTable (code, scope, table) with
  | some found => exact Balanced.refl fc db
  | none =>
    refine (updateDbUsage_meets (charge_meets (Int.natCast_nonneg _))).bind ?_
    intro charged isCharged
    refine (quiet_idCreate _ _ _).meets.bind ?_
    rintro ⟨id, tableIds⟩ created
    obtain ⟨-, -, rows, -⟩ := IdTable.create_eq_ok.mp created
    have stored : Owing fc charged { charged with tableIds }
        (Pi.single payer (tableIdObjectSize : Int)) := by
      refine ⟨?_, rfl, rfl⟩
      rw [debt_tableIds, paidFor, paidFor, rows, paidBy_insert_of_none _ _ (IdTable.find_nextId _)]
      abel
    exact (isCharged.owing fc).trans stored (neg_add_cancel _)

theorem modifyTable_balanced {tid' : TableIdObject} (found : db.tableIds.find id = some tid)
    (payer : tid'.payer = tid.payer) :
    Balanced fc db { db with tableIds := db.tableIds.modify id tid' } := by
  refine ⟨?_, rfl, rfl⟩
  rw [debt_tableIds, paidFor, paidFor, IdTable.modify_rows found, paidBy_insert_of_some _ _ found, payer]
  abel

theorem countUp_balanced (id : Nat) : Balanced fc db (db.countUp id) := by
  unfold countUp
  cases found : db.tableIds.find id with
  | none => exact Balanced.refl fc db
  | some tid => exact modifyTable_balanced found rfl

section

variable (found : db.tableIds.find id = some tid) (member : tid.payer ∈ refunded)

include found member

theorem removeTable_keeps : Keeps fc db refunded (db.removeTable context id tid) := by
  have paid : (tableIdObjectSize : Int) ≤ db.billed fc tid.payer :=
    (size_le_paidBy (fun _ (tid : TableIdObject) => tid.payer) (fun _ _ => tableIdObjectSize)
      found).trans (paidFor_le_billed .tables tid.payer)
  unfold removeTable
  refine (updateDbUsage_meets (giveBack_meets paid member)).bind ?_
  intro charged isCharged
  have removed : Owing fc charged { charged with tableIds := charged.tableIds.remove id }
      (-Pi.single tid.payer (tableIdObjectSize : Int)) := by
    obtain ⟨resourceLimits, rfl⟩ := isCharged.eq_with
    refine ⟨?_, rfl, rfl⟩
    rw [debt_tableIds, paidFor, paidFor, IdTable.remove, paidBy_erase _ _ found]
    abel
  refine (isCharged.owing fc).trans removed ?_
  rw [Pi.single_neg, neg_neg, add_neg_cancel]

theorem countDown_keeps : Keeps fc db refunded (db.countDown context id tid) := by
  unfold countDown
  generalize counts : ({ tid with count := (tid.count + (2 ^ 32 - 1)) % 2 ^ 32 } : TableIdObject) = tid'
  have payer : tid'.payer = tid.payer := by rw [← counts]
  have counted : Balanced fc db { db with tableIds := db.tableIds.modify id tid' } :=
    modifyTable_balanced found payer
  dsimp only
  split_ifs with last
  · refine Keeps.after counted (removeTable_keeps ?_ (payer ▸ member))
    rw [IdTable.find, IdTable.modify_rows found, AList.lookup_insert]
  · exact counted

end

theorem getTable_eq_ok (got : db.getTable id = .ok tid) : db.tableIds.find id = some tid := by
  unfold getTable at got
  cases found : db.tableIds.find id with
  | none =>
    rw [found] at got
    cases got
  | some row =>
    rw [found] at got
    exact congrArg some (Except.ok.inj got)

theorem getRow_eq_ok [DecidableEq κ] {ρ : κ → Type} {rows : AList ρ} {key : κ} {row : ρ key}
    (got : getRow rows key = .ok row) : rows.lookup key = some row := by
  unfold getRow at got
  cases found : rows.lookup key with
  | none =>
    rw [found] at got
    cases got
  | some row =>
    rw [found] at got
    exact congrArg some (Except.ok.inj got)

theorem quiet_getTable (id : Nat) : Quiet (db.getTable id) := quiet_elim (by decide)

theorem quiet_getRow [DecidableEq κ] {ρ : κ → Type} (rows : AList ρ) (key : κ) :
    Quiet (getRow rows key) :=
  quiet_elim (by decide)

/-! ### Primary rows -/

theorem dbStoreI64_keeps :
    Keeps fc db refunded (db.dbStoreI64 context code scope table payer id buffer) := by
  unfold dbStoreI64
  refine Meets.bind findOrCreateTable_meets ?_
  rintro ⟨tableId, withTable⟩ tableBalanced
  refine Keeps.after tableBalanced (check_next nofun fun _ => ?_)
  refine (quiet_create _ _ _).next fun keyValues created => ?_
  obtain ⟨missing, rfl⟩ := Database.create_eq_ok.mp created
  have stored : Owing fc withTable
      { withTable with keyValues := withTable.keyValues.insert (tableId, id) ⟨payer, buffer⟩ }
      (Pi.single payer ((buffer.length + keyValueObjectSize : Nat) : Int)) := by
    refine ⟨?_, rfl, rfl⟩
    rw [debt_keyValues, paidFor, paidFor, paidBy_insert_of_none _ _ missing]
    abel
  have counted := stored.trans (countUp_balanced tableId) (add_zero _)
  refine Meets.imp (updateDbUsage_meets (charge_meets (Int.natCast_nonneg _))) ?_
  intro charged isCharged
  exact counted.trans (isCharged.owing fc) (add_neg_cancel _)

theorem billUpdate_meets {oldPayer newPayer : AccountName} {oldSize newSize : Nat}
    (paid : (oldSize : Int) ≤ db.billed fc oldPayer) (member : oldPayer ∈ refunded) :
    Meets (db.Blames fc refunded)
      (fun db' => (∃ resourceLimits, db' = { db with resourceLimits }) ∧ Owing fc db db'
        (Pi.single oldPayer (oldSize : Int) - Pi.single newPayer (newSize : Int)))
      (db.billUpdate context oldPayer newPayer oldSize newSize) := by
  unfold billUpdate
  split_ifs with moved resized
  · refine (updateDbUsage_meets (giveBack_meets paid member)).bind ?_
    intro refund isRefund
    have first := isRefund.owing fc
    obtain ⟨_, rfl⟩ := isRefund.eq_with
    refine Meets.imp (updateDbUsage_meets (charge_meets (Int.natCast_nonneg _))) ?_
    intro charged isCharged
    have second := isCharged.owing fc
    obtain ⟨_, rfl⟩ := isCharged.eq_with
    refine ⟨⟨_, rfl⟩, first.trans second ?_⟩
    rw [Pi.single_neg]
    abel
  · obtain rfl := not_not.mp moved
    refine Meets.imp (updateDbUsage_meets (refund_meets paid rfl (by omega) member)) ?_
    intro charged isCharged
    have owing := isCharged.owing fc
    obtain ⟨_, rfl⟩ := isCharged.eq_with
    refine ⟨⟨_, rfl⟩, owing.of_eq ?_⟩
    rw [Pi.single_sub, neg_sub]
  · obtain rfl := not_not.mp moved
    refine ⟨⟨_, rfl⟩, (Balanced.refl fc db).of_eq ?_⟩
    rw [not_not.mp resized, sub_self]

theorem keyValue_paid (fc : FcFunctions) {obj : KeyValueObject}
    (found : db.keyValues.lookup row = some obj) :
    ((obj.value.length + keyValueObjectSize : Nat) : Int) ≤ db.billed fc obj.payer :=
  (size_le_paidBy (fun _ (obj : KeyValueObject) => obj.payer)
    (fun _ obj => obj.value.length + keyValueObjectSize) found).trans
      (paidFor_le_billed .keyValues obj.payer)

section

variable (member : ∀ obj, db.keyValues.lookup row = some obj → obj.payer ∈ refunded)

include member

theorem dbUpdateI64_keeps : Keeps fc db refunded (db.dbUpdateI64 context row payer buffer) := by
  unfold dbUpdateI64
  refine (quiet_getRow _ _).next fun obj got => ?_
  have found := getRow_eq_ok got
  refine (quiet_getTable _).next fun tableObj _ => check_next nofun fun _ => ?_
  refine Meets.bind (billUpdate_meets (keyValue_paid fc found) (member obj found)) ?_
  rintro _ ⟨⟨resourceLimits, rfl⟩, billed⟩
  have stored : Owing fc { db with resourceLimits }
      { db with
        resourceLimits
        keyValues := db.keyValues.insert row ⟨payerOr payer obj.payer, buffer⟩ }
      (Pi.single (payerOr payer obj.payer) ((buffer.length + keyValueObjectSize : Nat) : Int) -
        Pi.single obj.payer ((obj.value.length + keyValueObjectSize : Nat) : Int)) := by
    refine ⟨?_, rfl, rfl⟩
    rw [debt_keyValues fc { db with resourceLimits }, paidFor, paidFor,
      paidBy_insert_of_some _ _ found]
    abel
  exact billed.trans stored (by abel)

theorem dbRemoveI64_keeps
    (tableMember : ∀ tid, db.tableIds.find row.1 = some tid → tid.payer ∈ refunded) :
    Keeps fc db refunded (db.dbRemoveI64 context row) := by
  unfold dbRemoveI64
  refine (quiet_getRow _ _).next fun obj got => ?_
  have found := getRow_eq_ok got
  refine (quiet_getTable _).next fun tableObj gotTable => check_next nofun fun _ => ?_
  have tableFound := getTable_eq_ok gotTable
  have back := giveBack_meets (keyValue_paid fc found) (member obj found)
  refine (updateDbUsage_meets back).bind ?_
  intro refund isRefund
  have refunds := isRefund.owing fc
  obtain ⟨resourceLimits, rfl⟩ := isRefund.eq_with
  have erased : Owing fc { db with resourceLimits }
      { db with resourceLimits, keyValues := db.keyValues.erase row }
      (-Pi.single obj.payer ((obj.value.length + keyValueObjectSize : Nat) : Int)) := by
    refine ⟨?_, rfl, rfl⟩
    rw [debt_keyValues fc { db with resourceLimits }, paidFor, paidFor, paidBy_erase _ _ found]
    abel
  have removed : Balanced fc db _ :=
    refunds.trans erased (by rw [Pi.single_neg, neg_neg, add_neg_cancel])
  refine Keeps.after removed ?_
  exact countDown_keeps tableFound (tableMember tableObj tableFound)

end

/-! ### Secondary indices -/

theorem indexStore_keeps {type : SecondaryType} :
    Keeps fc db refunded (db.indexStore context type scope table payer id secondaryKey) := by
  unfold indexStore
  refine check_next nofun fun _ => Meets.bind findOrCreateTable_meets ?_
  rintro ⟨tableId, withTable⟩ tableBalanced
  refine Keeps.after tableBalanced ((quiet_create _ _ _).next fun secondaries created => ?_)
  obtain ⟨missing, rfl⟩ := Database.create_eq_ok.mp created
  have stored : Owing fc withTable
      { withTable with
        secondaries := withTable.secondaries.insert (type, tableId, id) ⟨payer, secondaryKey⟩ }
      (Pi.single payer (type.objectSize : Int)) := by
    refine ⟨?_, rfl, rfl⟩
    rw [debt_secondaries, paidFor, paidFor, paidBy_insert_of_none _ _ missing]
    abel
  have counted := stored.trans (countUp_balanced tableId) (add_zero _)
  refine Meets.imp (updateDbUsage_meets (charge_meets (Int.natCast_nonneg _))) ?_
  intro charged isCharged
  exact counted.trans (isCharged.owing fc) (add_neg_cancel _)

theorem secondary_paid (fc : FcFunctions) {row : SecondaryType × Nat × Nat} {obj : SecondaryObject}
    (found : db.secondaries.lookup row = some obj) :
    (row.1.objectSize : Int) ≤ db.billed fc obj.payer :=
  (size_le_paidBy (fun _ (obj : SecondaryObject) => obj.payer)
    (fun (row : SecondaryType × Nat × Nat) _ => row.1.objectSize) found).trans
      (paidFor_le_billed .secondaries obj.payer)

section

variable {row : SecondaryType × Nat × Nat}
  (member : ∀ obj, db.secondaries.lookup row = some obj → obj.payer ∈ refunded)

include member

theorem indexRemove_keeps
    (tableMember : ∀ tid, db.tableIds.find row.2.1 = some tid → tid.payer ∈ refunded) :
    Keeps fc db refunded (db.indexRemove context row) := by
  unfold indexRemove
  refine (quiet_getRow _ _).next fun obj got => ?_
  have found := getRow_eq_ok got
  have back := giveBack_meets (secondary_paid fc found) (member obj found)
  refine (updateDbUsage_meets back).bind ?_
  intro refund isRefund
  have refunds := isRefund.owing fc
  obtain ⟨resourceLimits, rfl⟩ := isRefund.eq_with
  refine (quiet_getTable _).next fun tableObj gotTable => check_next nofun fun _ => ?_
  have tableFound := getTable_eq_ok gotTable
  have erased : Owing fc { db with resourceLimits }
      { db with resourceLimits, secondaries := db.secondaries.erase row }
      (-Pi.single obj.payer (row.1.objectSize : Int)) := by
    refine ⟨?_, rfl, rfl⟩
    rw [debt_secondaries fc { db with resourceLimits }, paidFor, paidFor, paidBy_erase _ _ found]
    abel
  have removed : Balanced fc db _ :=
    refunds.trans erased (by rw [Pi.single_neg, neg_neg, add_neg_cancel])
  refine Keeps.after removed ?_
  exact countDown_keeps tableFound (tableMember tableObj tableFound)

theorem indexUpdate_keeps :
    Keeps fc db refunded (db.indexUpdate context row payer secondaryKey) := by
  unfold indexUpdate
  refine (quiet_getRow _ _).next fun obj got => ?_
  have found := getRow_eq_ok got
  refine (quiet_getTable _).next fun tableObj _ => check_next nofun fun _ => ?_
  refine Meets.bind (billUpdate_meets (secondary_paid fc found) (member obj found)) ?_
  rintro _ ⟨⟨resourceLimits, rfl⟩, billed⟩
  have stored : Owing fc { db with resourceLimits }
      { db with
        resourceLimits
        secondaries := db.secondaries.insert row ⟨payerOr payer obj.payer, secondaryKey⟩ }
      (Pi.single (payerOr payer obj.payer) (row.1.objectSize : Int) -
        Pi.single obj.payer (row.1.objectSize : Int)) := by
    refine ⟨?_, rfl, rfl⟩
    rw [debt_secondaries fc { db with resourceLimits }, paidFor, paidFor,
      paidBy_insert_of_some _ _ found]
    abel
  exact billed.trans stored (by abel)

end

/-! ### Deferred transactions -/

variable {sender : AccountName} {senderId : Nat} {trx : Transaction}

variable {host : Host} {key : AccountName × Nat} {gto : GeneratedTransaction}
  {replaceExisting : Bool}

/-! ### The checks -/

theorem quiet_findPermission (level : PermissionLevel) : Quiet (db.findPermission level) :=
  quiet_guard nofun fun _ => quiet_ok _

theorem quiet_getPermission (level : PermissionLevel) : Quiet (db.getPermission level) :=
  quiet_bind (quiet_findPermission level) fun _ => quiet_elim (by decide)

theorem quiet_requireAuthorization (account : AccountName) :
    Quiet (context.requireAuthorization account) :=
  quiet_assert nofun

theorem quiet_validateReferencedAccounts (quiet : host.Quiet) (trx : Transaction) (enforce : Bool) :
    Quiet (db.validateReferencedAccounts host trx enforce) := by
  have contextFree (a : Action) : Quiet (db.validateContextFreeAction a) :=
    quiet_guard nofun fun _ => quiet_assert nofun
  have actor (auth : PermissionLevel) : Quiet (db.validateActor auth) :=
    quiet_guard nofun fun _ => quiet_bind (quiet_findPermission auth) fun _ => quiet_assert nofun
  have action (a : Action) : Quiet (db.validateAction a) :=
    quiet_guard nofun fun _ => quiet_forM actor
  refine quiet_bind (quiet_forM contextFree) fun _ => quiet_bind (quiet_forM action) fun _ => ?_
  exact quiet_guard nofun fun _ => quiet_ite (quiet.checkActorList _) (quiet_ok ())

theorem quiet_extractExtensions (unpack : Bytes → Option GenerationContext)
    (extensions : List (Nat × Bytes)) (first : Bool) (last : Nat) :
    Quiet (Transaction.extractExtensions unpack first last extensions) := by
  induction extensions generalizing first last with
  | nil => exact quiet_ok _
  | cons extension extensions ih =>
    refine quiet_guard nofun fun _ => ?_
    refine quiet_guard nofun fun _ => ?_
    refine quiet_bind (quiet_elim (by decide)) fun _ => ?_
    refine quiet_guard nofun fun _ => ?_
    exact quiet_bind (ih false extension.1) fun _ => quiet_ok _

theorem quiet_prepareDeferred (senderId : Nat) (trx : Transaction) :
    Quiet (prepareDeferred context senderId trx) := by
  refine quiet_ite (quiet_bind ?_ fun _ => quiet_ok _) (quiet_ok _)
  refine quiet_bind (quiet_extractExtensions _ _ true 0) fun exts => ?_
  cases exts with
  | nil => exact quiet_ok _
  | cons given others =>
    refine quiet_guard nofun fun _ => quiet_bind ?_ fun _ => quiet_ok _
    refine quiet_guard nofun fun _ => ?_
    exact quiet_guard nofun fun _ => quiet_assert nofun

theorem quiet_checkDeferredPayer (payer : AccountName) : Quiet (checkDeferredPayer context payer) :=
  quiet_ite (quiet_ok ()) (quiet_ite (quiet_guard nofun fun _ => quiet_assert nofun)
    (quiet_requireAuthorization payer))

theorem quiet_checkDeferredAuthorization (quiet : context.host.Quiet) (trx : Transaction) :
    Quiet (db.checkDeferredAuthorization context trx) := by
  have authorized := quiet.checkAuthorization db context.receiver trx.actions trx.delaySec
  unfold checkDeferredAuthorization
  split
  · exact quiet_ok ()
  · rename_i thrown failed
    rw [failed] at authorized
    refine quiet_ite ?_ (quiet_ite (quiet_error (fun subjective => nomatch subjective)) (quiet_ok ()))
    exact fun underflow => authorized (congrArg Except.error (Except.error.inj underflow))

theorem quiet_checkDeferred (quiet : context.host.Quiet) (senderId : Nat) (payer : AccountName)
    (trx : Transaction) : Quiet (db.checkDeferred context senderId payer trx) := by
  refine quiet_guard nofun fun _ => ?_
  refine quiet_bind (quiet_validateReferencedAccounts quiet trx _) fun _ => ?_
  refine quiet_bind (quiet_prepareDeferred senderId trx) fun prepared => ?_
  refine quiet_bind (quiet.addNetUsage _) fun _ => ?_
  refine quiet_bind (quiet_ite (quiet_ok ()) ?_) fun _ => quiet_ok _
  exact quiet_bind (quiet_checkDeferredPayer payer) fun _ =>
    quiet_checkDeferredAuthorization quiet prepared

/-! ### Stored transactions -/

theorem transaction_paid (fc : FcFunctions)
    (found : db.generatedTransactions.lookup key = some gto) :
    (gto.ramBytes : Int) ≤ db.billed fc gto.payer :=
  (size_le_paidBy (fun _ (gto : GeneratedTransaction) => gto.payer)
    (fun _ gto => gto.ramBytes) found).trans (paidFor_le_billed .transactions gto.payer)

theorem createGenerated_meets {gtx : GeneratedTransaction} : Meets (db'.Blames fc refunded)
      (fun stored => Owing fc db stored (Pi.single gtx.payer (gtx.ramBytes : Int)))
      (db.createGenerated sender senderId gtx) := by
  unfold createGenerated
  refine check_next nofun fun _ => (quiet_create _ _ _).next fun transactions created => ?_
  obtain ⟨missing, rfl⟩ := Database.create_eq_ok.mp created
  refine ⟨?_, rfl, rfl⟩
  rw [debt_generatedTransactions, paidFor, paidFor, paidBy_insert_of_none _ _ missing]
  abel

/-- A transaction is erased, and its payer gets back what it paid for it. -/
theorem eraseGenerated_balanced (found : db.generatedTransactions.lookup key = some gto)
    (refunds : db.Charged gto.payer (-gto.ramBytes) db') :
    Balanced fc db { db' with generatedTransactions := db'.generatedTransactions.erase key } := by
  have owing := refunds.owing fc
  obtain ⟨resourceLimits, rfl⟩ := refunds.eq_with
  refine owing.trans ⟨?_, rfl, rfl⟩ (add_neg_cancel _)
  rw [debt_generatedTransactions fc { db with resourceLimits }, paidFor, paidFor,
    paidBy_erase _ _ found, Pi.single_neg]
  abel

theorem storeDeferred_meets (replaces : context.control.replaceDeferred = true)
    (member : ∀ gto, db.generatedTransactions.lookup (context.receiver, senderId) = some gto →
      gto.payer ∈ refunded) :
    Meets (db.Blames fc refunded)
      (fun stored => Owing fc db stored (Pi.single payer
        ((generatedTransactionObjectSize + (context.host.packTransaction trx).length : Nat) : Int)))
      (db.storeDeferred context senderId payer trx replaceExisting) := by
  unfold storeDeferred
  cases found : db.generatedTransactions.lookup (context.receiver, senderId) with
  | none => exact createGenerated_meets
  | some replaced =>
    refine check_next nofun fun _ => check_next nofun fun _ => ?_
    unfold refundReplaced
    rw [if_pos replaces, if_pos replaces]
    refine (giveBack_meets (transaction_paid fc found) (member replaced found)).bind ?_
    intro refund isRefund
    have erased : Balanced fc db _ := eraseGenerated_balanced found isRefund
    refine Meets.imp createGenerated_meets fun stored owing => ?_
    exact erased.trans owing (zero_add _)

theorem scheduleDeferredTransaction_keeps (quiet : context.host.Quiet)
    (replaces : context.control.replaceDeferred = true)
    (member : ∀ gto, db.generatedTransactions.lookup (context.receiver, senderId) = some gto →
      gto.payer ∈ refunded) :
    Keeps fc db refunded
      (db.scheduleDeferredTransaction context senderId payer trx replaceExisting) := by
  unfold scheduleDeferredTransaction
  refine (quiet_checkDeferred quiet senderId payer trx).next fun prepared _ => ?_
  refine (storeDeferred_meets replaces member).bind fun stored owing => ?_
  refine check_next nofun fun _ => ?_
  refine Meets.imp (charge_meets (Int.natCast_nonneg _)) fun charged isCharged => ?_
  exact owing.trans (isCharged.owing fc) (add_neg_cancel _)

theorem cancelDeferredTransaction_meets
    (member : ∀ gto, db.generatedTransactions.lookup (sender, senderId) = some gto →
      gto.payer ∈ refunded) :
    Meets (db.Blames fc refunded) (fun result : Bool × ChainDb => Balanced fc db result.2)
      (db.cancelDeferredTransaction senderId sender) := by
  unfold cancelDeferredTransaction
  cases found : db.generatedTransactions.lookup (sender, senderId) with
  | none => exact Balanced.refl fc db
  | some gto =>
    refine (giveBack_meets (transaction_paid fc found) (member gto found)).bind ?_
    intro refund isRefund
    exact eraseGenerated_balanced found isRefund

theorem scheduleTransaction_keeps (quiet : host.Quiet) {control : Control} {id : TransactionId}
    {delaySec : Nat} :
    Keeps fc db refunded (db.scheduleTransaction host control id delaySec trx) := by
  unfold scheduleTransaction
  refine (quiet_ite (quiet.addNetUsage _) (quiet_ok ())).next fun _ _ => ?_
  refine createGenerated_meets.bind fun stored owing => ?_
  refine Meets.imp (charge_meets (Int.natCast_nonneg _)) fun charged isCharged => ?_
  exact owing.trans (isCharged.owing fc) (add_neg_cancel _)

theorem removeScheduledTransaction_keeps
    (member : ∀ gto, db.generatedTransactions.lookup (sender, senderId) = some gto →
      gto.payer ∈ refunded) :
    Keeps fc db refunded (db.removeScheduledTransaction sender senderId) := by
  unfold removeScheduledTransaction
  refine (quiet_get _ _).next fun gto got => ?_
  have found := Database.get_eq_ok.mp got
  have back := giveBack_meets (transaction_paid fc found) (member gto found)
  unfold addRamUsage at back
  cases ran : db.resourceLimits.addPendingRamUsage gto.payer (-gto.ramBytes) with
  | error thrown =>
    rw [ran] at back
    exact back
  | ok resourceLimits =>
    rw [ran] at back
    exact eraseGenerated_balanced found back

/-! ### Native actions -/

variable {parent : Nat} {name permission : PermissionName} {auth : Authority} {type : ActionName}
  {account : AccountName}

theorem captureAndRethrow_meets {α : Type} {post : α → Prop} {program : Checked α}
    (meets : Meets (db.Blames fc refunded) post program) :
    Meets (db.Blames fc refunded) post (captureAndRethrow program) := by
  cases program with
  | ok value => exact meets
  | error thrown =>
    unfold captureAndRethrow
    dsimp only
    split_ifs with isFc
    · exact meets
    · exact fun underflow => nomatch congrArg ChainException.code underflow

theorem resize_meets {oldSize newSize : Nat} (usage : db'.ramUsage = db.ramUsage)
    (paid : (oldSize : Int) ≤ db.billed fc account) (member : account ∈ refunded) :
    Meets (db.Blames fc refunded) (db'.Charged account (newSize - oldSize))
      (if newSize ≠ oldSize then db'.addRamUsage account (newSize - oldSize) else .ok db') := by
  split_ifs with resized
  · exact refund_meets paid usage (by omega) member
  · refine ⟨db'.resourceLimits, rfl, ?_⟩
    rw [not_not.mp resized, sub_self, Pi.single_zero, add_zero]

/-! ### The abi -/

theorem setabi_keeps {abi : Bytes} (member : account ∈ refunded) :
    Keeps fc db refunded (db.setabi context account abi) := by
  unfold setabi
  refine (quiet_requireAuthorization account).next fun _ _ => (quiet_get _ _).next fun object got => ?_
  have found := Database.get_eq_ok.mp got
  refine (quiet_get _ _).next fun _ _ => ?_
  have paid : (object.abi.length : Int) ≤ db.billed fc account := by
    have whole : ((overheadPerAccountRamBytes + object.abi.length : Nat) : Int) ≤ db.billed fc account :=
      (size_le_paidBy (fun name (_ : AccountObject) => name)
        (fun _ account => overheadPerAccountRamBytes + account.abi.length) found).trans
          (paidFor_le_billed .accounts account)
    omega
  have stored : Owing fc db { db with accounts := db.accounts.insert account { object with abi } }
      (Pi.single account (abi.length - object.abi.length : Int)) := by
    refine ⟨?_, rfl, rfl⟩
    rw [debt_accounts, paidFor, paidFor, paidBy_insert_of_some _ _ found, Pi.single_sub]
    push_cast
    rw [Pi.single_add, Pi.single_add]
    abel
  dsimp only
  refine Meets.imp (resize_meets rfl paid member) ?_
  intro charged isCharged
  exact stored.trans (isCharged.owing fc) (add_neg_cancel _)

/-! ### Permissions -/

theorem permission_paid (fc : FcFunctions) {permission : PermissionObject}
    (found : db.permissions.find id = some permission) :
    (permission.auth.permissionRamBytes fc : Int) ≤ db.billed fc permission.owner :=
  (size_le_paidBy (fun _ (permission : PermissionObject) => permission.owner)
    (fun _ permission => permission.auth.permissionRamBytes fc) found).trans
      (paidFor_le_billed .permissions permission.owner)

theorem quiet_createPermission :
    Quiet (db.createPermission account name parent auth) :=
  quiet_bind (quiet_idCreate _ _ _) fun _ => quiet_ok _

theorem createPermission_owing (ran : db.createPermission account name parent auth = .ok (id, db'))
    (fc : FcFunctions) :
    Owing fc db db' (Pi.single account (auth.permissionRamBytes fc : Int)) ∧
      db'.resourceLimits = db.resourceLimits := by
  unfold createPermission at ran
  obtain ⟨⟨id', permissions⟩, created, ran⟩ := of_bind ran
  obtain ⟨rfl, rfl⟩ := Prod.mk.inj (Except.ok.inj ran)
  obtain ⟨-, -, rows, -⟩ := IdTable.create_eq_ok.mp created
  refine ⟨⟨?_, rfl, rfl⟩, rfl⟩
  rw [debt_permissions, paidFor, paidFor, rows, paidBy_insert_of_none _ _ (IdTable.find_nextId _)]
  abel

theorem quiet_validateAuthorityPrecondition (auth : Authority) :
    Quiet (db.validateAuthorityPrecondition context auth) := by
  have account (a : PermissionLevelWeight) : Quiet (db.validateAuthorityAccount a) := by
    refine quiet_guard nofun fun _ => quiet_ite (quiet_ok ()) ?_
    have known : Quiet (db.getPermission a.permission) := quiet_getPermission a.permission
    split
    · exact quiet_ok ()
    · rename_i thrown failed
      rw [failed] at known
      refine quiet_ite (quiet_error (fun invalid => nomatch invalid)) ?_
      exact fun underflow => known (congrArg Except.error (Except.error.inj underflow))
  exact quiet_bind (quiet_forM account) fun _ =>
    quiet_ite (quiet_forM fun _ => quiet_assert nofun) (quiet_ok ())

section

variable (same : context.host.toFcFunctions = fc) (member : account ∈ refunded)

include same member

theorem updateauth_keeps {parent : PermissionName} :
    Keeps fc db refunded (db.updateauth context account permission parent auth) := by
  have names : Quiet (checkUpdateNames permission parent) :=
    quiet_guard nofun fun _ => quiet_guard nofun fun _ => quiet_guard nofun fun _ => quiet_assert nofun
  have parents : Quiet (checkUpdateParent permission parent) :=
    quiet_guard nofun fun _ => quiet_ite (quiet_assert nofun) (quiet_assert nofun)
  have parentIds : Quiet (db.parentId account permission parent) :=
    quiet_ite (quiet_bind (quiet_getPermission _) fun _ => quiet_ok _) (quiet_ok _)
  unfold updateauth
  refine (quiet_requireAuthorization account).next fun _ _ => names.next fun _ _ => ?_
  refine (quiet_get _ _).next fun _ _ => check_next nofun fun _ => parents.next fun _ _ => ?_
  refine Quiet.next (quiet_assert (by decide)) fun _ _ => ?_
  refine (quiet_validateAuthorityPrecondition auth).next fun _ _ => ?_
  refine (quiet_findPermission _).next fun existing searched => parentIds.next fun parentId _ => ?_
  rw [same]
  obtain ⟨-, located⟩ := findPermission_eq_ok searched
  match existing, located with
  | some (id, existing), located =>
    obtain ⟨found, key⟩ := IdTable.findBy_eq_some located.symm
    have owner : existing.owner = account := (Prod.mk.inj key).1
    refine check_next nofun fun _ => ?_
    have stored : Owing fc db (db.modifyPermission id existing auth) (Pi.single existing.owner
        (auth.permissionRamBytes fc - existing.auth.permissionRamBytes fc : Int)) := by
      refine ⟨?_, rfl, rfl⟩
      rw [modifyPermission, debt_permissions, paidFor, paidFor, IdTable.modify_rows found,
        paidBy_insert_of_some _ _ found, Pi.single_sub]
      abel
    have paid := permission_paid fc found
    refine Meets.imp (refund_meets paid rfl (by omega) (owner ▸ member)) ?_
    intro charged isCharged
    exact stored.trans (isCharged.owing fc) (add_neg_cancel _)
  | none, _ =>
    refine quiet_createPermission.next fun result created => ?_
    obtain ⟨stored, -⟩ := createPermission_owing created fc
    refine Meets.imp (charge_meets (Int.natCast_nonneg _)) ?_
    intro charged isCharged
    exact stored.trans (isCharged.owing fc) (add_neg_cancel _)

theorem deleteauth_keeps : Keeps fc db refunded (db.deleteauth context account permission) := by
  unfold deleteauth
  refine (quiet_requireAuthorization account).next fun _ _ => ?_
  refine check_next nofun fun _ => check_next nofun fun _ => ?_
  refine check_next nofun fun _ => (quiet_getPermission _).next fun located got => ?_
  obtain ⟨id, existing⟩ := located
  obtain ⟨-, found, owner, -⟩ := getPermission_eq_ok got
  dsimp only at owner
  subst owner
  unfold removePermission
  dsimp only
  rw [bind_assoc]
  refine check_next nofun fun _ => ?_
  rw [pure_bind]
  rw [same]
  have removed : Owing fc db { db with permissions := db.permissions.remove id }
      (-Pi.single existing.owner (existing.auth.permissionRamBytes fc : Int)) := by
    refine ⟨?_, rfl, rfl⟩
    rw [debt_permissions, paidFor, paidFor, IdTable.remove, paidBy_erase _ _ found]
    abel
  refine Meets.imp (refund_meets (permission_paid fc found) rfl le_rfl member) ?_
  intro charged isCharged
  exact removed.trans (isCharged.owing fc) (by rw [Pi.single_neg, neg_neg, neg_add_cancel])

end

theorem linkauth_keeps {requirement : PermissionName} :
    Keeps fc db refunded (db.linkauth context account code type requirement) := by
  refine captureAndRethrow_meets ?_
  unfold createLink
  refine check_next nofun fun _ => (quiet_requireAuthorization account).next fun _ _ => ?_
  refine check_next nofun fun _ => check_next nofun fun _ => ?_
  refine check_next nofun fun _ => ?_
  cases found : db.permissionLinks.lookup (account, code, type) with
  | some required =>
    refine check_next nofun fun _ => ⟨?_, rfl, rfl⟩
    rw [debt_permissionLinks, paidFor, paidFor, paidBy_insert_of_some _ _ found]
    abel
  | none =>
    have linked : Owing fc db { db with
        permissionLinks := db.permissionLinks.insert (account, code, type) requirement }
        (Pi.single account (permissionLinkObjectSize : Int)) := by
      refine ⟨?_, rfl, rfl⟩
      rw [debt_permissionLinks, paidFor, paidFor, paidBy_insert_of_none _ _ found]
      abel
    refine Meets.imp (charge_meets (Int.natCast_nonneg _)) ?_
    intro charged isCharged
    exact linked.trans (isCharged.owing fc) (add_neg_cancel _)

theorem unlinkauth_keeps (member : account ∈ refunded) :
    Keeps fc db refunded (db.unlinkauth context account code type) := by
  unfold unlinkauth
  refine (quiet_requireAuthorization account).next fun _ _ => check_next nofun fun linked => ?_
  obtain ⟨required, found⟩ := Option.isSome_iff_exists.mp (AList.lookup_isSome.mpr linked)
  have paid : (permissionLinkObjectSize : Int) ≤ db.billed fc account :=
    (size_le_paidBy (fun (link : AccountName × AccountName × ActionName) (_ : PermissionName) => link.1)
      (fun _ _ => permissionLinkObjectSize) found).trans (paidFor_le_billed .links account)
  refine (giveBack_meets paid member).bind fun refund isRefund => ?_
  have refunds := isRefund.owing fc
  obtain ⟨resourceLimits, rfl⟩ := isRefund.eq_with
  refine refunds.trans ⟨?_, rfl, rfl⟩ (add_neg_cancel _)
  rw [debt_permissionLinks fc { db with resourceLimits }, paidFor, paidFor, paidBy_erase _ _ found,
    Pi.single_neg]
  abel

theorem canceldelay_keeps {cancelingAuth : PermissionLevel} {trxId : TransactionId}
    (member : ∀ gto, db.generatedTransactions.lookup (0, transactionIdToSenderId trxId) = some gto →
      gto.payer ∈ refunded) :
    Keeps fc db refunded (db.canceldelay context cancelingAuth trxId) := by
  unfold canceldelay
  refine (quiet_requireAuthorization _).next fun _ _ => ?_
  exact (cancelDeferredTransaction_meets member).bind fun _ balanced => balanced

end ChainDb

end CodexRelay.Chain
