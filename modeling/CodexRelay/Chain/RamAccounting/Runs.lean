import CodexRelay.Chain.RamAccounting.Code

/-!
Contract: accounts pay for exactly what is stored for them.

Owns:
- `RamOperation`, the calls that bill memory, with the accounts that each of them pays back;
- the step and run lemmas for them, inside of undo sessions.

Does not own: genesis, which stores objects without billing them. Names that genesis does not use
begin without debts, and this is how they stay. A call that underflows pays back an account of
genesis.
-/

namespace CodexRelay.Chain

open Library ChainDb List

inductive RamOperation where
  | newaccount (context : ApplyContext) (creator name : AccountName) (owner active : Authority)
  | setcode (context : ApplyContext) (account : AccountName) (vmtype vmversion : Nat) (code : Bytes)
  | setabi (context : ApplyContext) (account : AccountName) (abi : Bytes)
  | updateauth (context : ApplyContext) (account : AccountName) (permission parent : PermissionName)
      (auth : Authority)
  | deleteauth (context : ApplyContext) (account : AccountName) (permission : PermissionName)
  | linkauth (context : ApplyContext) (account code : AccountName) (type : ActionName)
      (requirement : PermissionName)
  | unlinkauth (context : ApplyContext) (account code : AccountName) (type : ActionName)
  | canceldelay (context : ApplyContext) (cancelingAuth : PermissionLevel) (trxId : TransactionId)
  | dbStoreI64 (context : ApplyContext) (code : AccountName) (scope table : Nat) (payer : AccountName)
      (id : Nat) (buffer : Bytes)
  | dbUpdateI64 (context : ApplyContext) (row : Nat × Nat) (payer : AccountName) (buffer : Bytes)
  | dbRemoveI64 (context : ApplyContext) (row : Nat × Nat)
  | indexStore (context : ApplyContext) (type : SecondaryType) (scope table : Nat)
      (payer : AccountName) (id secondaryKey : Nat)
  | indexUpdate (context : ApplyContext) (row : SecondaryType × Nat × Nat) (payer : AccountName)
      (secondaryKey : Nat)
  | indexRemove (context : ApplyContext) (row : SecondaryType × Nat × Nat)
  | scheduleDeferredTransaction (context : ApplyContext) (senderId : Nat) (payer : AccountName)
      (trx : Transaction) (replaceExisting : Bool)
  | cancelDeferredTransaction (senderId : Nat) (sender : AccountName)
  | scheduleTransaction (host : Host) (control : Control) (id : TransactionId) (delaySec : Nat)
      (trx : Transaction)
  | removeScheduledTransaction (sender : AccountName) (senderId : Nat)

namespace RamOperation

def apply (db : ChainDb) : RamOperation → Checked ChainDb
  | newaccount context creator name owner active => db.newaccount context creator name owner active
  | setcode context account vmtype vmversion code => db.setcode context account vmtype vmversion code
  | setabi context account abi => db.setabi context account abi
  | updateauth context account permission parent auth =>
    db.updateauth context account permission parent auth
  | deleteauth context account permission => db.deleteauth context account permission
  | linkauth context account code type requirement => db.linkauth context account code type requirement
  | unlinkauth context account code type => db.unlinkauth context account code type
  | canceldelay context cancelingAuth trxId => db.canceldelay context cancelingAuth trxId
  | dbStoreI64 context code scope table payer id buffer =>
    db.dbStoreI64 context code scope table payer id buffer
  | dbUpdateI64 context row payer buffer => db.dbUpdateI64 context row payer buffer
  | dbRemoveI64 context row => db.dbRemoveI64 context row
  | indexStore context type scope table payer id secondaryKey =>
    db.indexStore context type scope table payer id secondaryKey
  | indexUpdate context row payer secondaryKey => db.indexUpdate context row payer secondaryKey
  | indexRemove context row => db.indexRemove context row
  | scheduleDeferredTransaction context senderId payer trx replaceExisting =>
    db.scheduleDeferredTransaction context senderId payer trx replaceExisting
  | cancelDeferredTransaction senderId sender => (·.2) <$> db.cancelDeferredTransaction senderId sender
  | scheduleTransaction host control id delaySec trx =>
    db.scheduleTransaction host control id delaySec trx
  | removeScheduledTransaction sender senderId => db.removeScheduledTransaction sender senderId

/-- The accounts whose usage the call may decrease. -/
def refunded (db : ChainDb) : RamOperation → List AccountName
  | setcode _ account .. | setabi _ account _ | updateauth _ account .. | deleteauth _ account _
  | unlinkauth _ account .. => [account]
  | dbUpdateI64 _ row .. => ((db.keyValues.lookup row).map (·.payer)).toList
  | dbRemoveI64 _ row => ((db.keyValues.lookup row).map (·.payer)).toList ++
      ((db.tableIds.find row.1).map (·.payer)).toList
  | indexUpdate _ row .. => ((db.secondaries.lookup row).map (·.payer)).toList
  | indexRemove _ row => ((db.secondaries.lookup row).map (·.payer)).toList ++
      ((db.tableIds.find row.2.1).map (·.payer)).toList
  | scheduleDeferredTransaction context senderId .. =>
    ((db.generatedTransactions.lookup (context.receiver, senderId)).map (·.payer)).toList
  | canceldelay _ _ trxId =>
    ((db.generatedTransactions.lookup (0, transactionIdToSenderId trxId)).map (·.payer)).toList
  | cancelDeferredTransaction senderId sender | removeScheduledTransaction sender senderId =>
    ((db.generatedTransactions.lookup (sender, senderId)).map (·.payer)).toList
  | newaccount .. | linkauth .. | dbStoreI64 .. | indexStore .. | scheduleTransaction .. => []

/-- What a call finds around the tables: the same functions of `fc` in every call, host functions
that do not bill, `replace_deferred`, and a code whose hash is its own. -/
def Admissible (fc : FcFunctions) (db : ChainDb) : RamOperation → Prop
  | newaccount context .. | updateauth context .. | deleteauth context .. =>
    context.host.toFcFunctions = fc
  | setcode context _ _ _ code =>
    context.host.toFcFunctions = fc ∧ context.host.Quiet ∧ NewCode fc db code
  | scheduleDeferredTransaction context .. =>
    context.host.Quiet ∧ context.control.replaceDeferred = true
  | scheduleTransaction host .. => host.Quiet
  | _ => True

end RamOperation

namespace ChainDb

variable {fc : FcFunctions} {db db' start : ChainDb} {operation : RamOperation}

def RamStep (fc : FcFunctions) (db db' : ChainDb) : Prop :=
  ∃ operation : RamOperation, operation.Admissible fc db ∧ operation.apply db = .ok db'

theorem payer_mem {ρ : Type} {found : Option ρ} {payer : ρ → AccountName} (row : ρ)
    (same : found = some row) : payer row ∈ (found.map payer).toList := by
  rw [same]
  exact mem_singleton_self _

/-- The step lemma: no call leaves debts. -/
theorem apply_meets (held : CodesHeld db) (admissible : operation.Admissible fc db) :
    Meets (db.Blames fc (operation.refunded db)) (Kept fc db) (operation.apply db) := by
  have kept {program : Checked ChainDb} (keeps : Keeps fc db (operation.refunded db) program) :
      Meets (db.Blames fc (operation.refunded db)) (Kept fc db) program :=
    keeps.imp fun _ balanced => Owing.kept held balanced
  cases operation with
  | newaccount => exact captureAndRethrow_meets (createAccount_meets admissible held)
  | setcode =>
    obtain ⟨same, quiet, fresh⟩ := admissible
    exact setcode_meets quiet same held fresh (mem_singleton_self _)
  | setabi => exact kept (setabi_keeps (mem_singleton_self _))
  | updateauth => exact kept (updateauth_keeps admissible (mem_singleton_self _))
  | deleteauth => exact kept (deleteauth_keeps admissible (mem_singleton_self _))
  | linkauth => exact kept linkauth_keeps
  | unlinkauth => exact kept (unlinkauth_keeps (mem_singleton_self _))
  | canceldelay => exact kept (canceldelay_keeps payer_mem)
  | dbStoreI64 => exact kept dbStoreI64_keeps
  | dbUpdateI64 => exact kept (dbUpdateI64_keeps payer_mem)
  | dbRemoveI64 =>
    exact kept (dbRemoveI64_keeps (fun obj found => mem_append_left _ (payer_mem obj found))
      fun tid found => mem_append_right _ (payer_mem tid found))
  | indexStore => exact kept indexStore_keeps
  | indexUpdate => exact kept (indexUpdate_keeps payer_mem)
  | indexRemove =>
    exact kept (indexRemove_keeps (fun obj found => mem_append_left _ (payer_mem obj found))
      fun tid found => mem_append_right _ (payer_mem tid found))
  | scheduleDeferredTransaction =>
    exact kept (scheduleDeferredTransaction_keeps admissible.1 admissible.2 payer_mem)
  | cancelDeferredTransaction senderId sender =>
    refine kept (Meets.bind (cancelDeferredTransaction_meets ?_) fun _ balanced => balanced)
    exact payer_mem
  | scheduleTransaction => exact kept (scheduleTransaction_keeps admissible)
  | removeScheduledTransaction => exact kept (removeScheduledTransaction_keeps payer_mem)

/-- The run lemma: the debts at the end are those of the start. -/
theorem kept_of_run (held : CodesHeld start) {visited : List ChainDb}
    (run : Run (RamStep fc) start visited db) : Kept fc start db := by
  induction run with
  | refl => exact ⟨rfl, held⟩
  | snoc before step ih =>
    obtain ⟨operation, admissible, ran⟩ := step
    have kept := (apply_meets ih.held admissible).of_eq_ok ran
    exact ⟨kept.debt.trans ih.debt, kept.held⟩

/-- In every run, an account that genesis does not use was billed exactly for the objects that
it pays for. A call that underflows pays back an account of genesis. -/
theorem ramUsage_eq_billed_of_run {genesis : Set AccountName} (held : CodesHeld start)
    (unused : ∀ a ∉ genesis, start.ramUsage a = 0 ∧ start.billed fc a = 0)
    {visited : List (ChainDb × List ChainDb)} {saved : List ChainDb}
    (run : Run (SessionStep (RamStep fc)) (start, []) visited (db, saved)) :
    (∀ a ∉ genesis, db.ramUsage a = db.billed fc a) ∧
      ∀ operation : RamOperation, operation.Admissible fc db →
        operation.apply db = .error ramUnderflow → ∃ a ∈ operation.refunded db, a ∈ genesis := by
  obtain ⟨earlier, plain⟩ := SessionStep.reached run db (mem_cons_self ..)
  have kept := kept_of_run held plain
  have solvent (a : AccountName) (other : a ∉ genesis) : db.debt fc a = 0 := by
    obtain ⟨noUsage, noBill⟩ := unused a other
    rw [kept.debt, debt, Pi.sub_apply, noUsage, noBill, sub_zero]
  refine ⟨fun a other => ?_, fun operation admissible ran => ?_⟩
  · have balance := solvent a other
    rw [debt, Pi.sub_apply] at balance
    omega
  · obtain ⟨a, member, owed⟩ := (apply_meets kept.held admissible).of_eq_error ran rfl
    refine ⟨a, member, ?_⟩
    by_contra other
    exact owed.ne' (solvent a other)

/-- The tables before the first account, except that the system account is known. -/
def systemOnly : ChainDb := { genesisDb with accountMetadata := AList.singleton systemAccountName {} }

def withFirst : ChainDb :=
  (systemOnly.newaccount systemContext systemAccountName bob soleKey soleKey).toOption.getD genesisDb

/-- Nobody has paid for anything; the reserved permission has no owner. -/
theorem systemOnly_unused (a : AccountName) (other : a ∉ ({0} : Set AccountName)) :
    systemOnly.ramUsage a = 0 ∧ systemOnly.billed freeHost.toFcFunctions a = 0 := by
  have nobody : (0 : AccountName) ≠ a := fun same => other same.symm
  refine ⟨rfl, ?_⟩
  rw [billed, Finset.sum_apply]
  refine Finset.sum_eq_zero fun part _ => ?_
  cases part with
  | permissions =>
    refine congrArg Int.ofNat ?_
    change (if (0 : AccountName) = a then _ else 0) + 0 = 0
    rw [if_neg nobody, Nat.add_zero]
  | code =>
    refine congrArg Int.ofNat ?_
    change (if systemAccountName = a then 0 else 0) + 0 = 0
    rw [ite_self, Nat.add_zero]
  | _ => rfl

theorem systemOnly_codesHeld : CodesHeld systemOnly where
  counted _ := rfl
  used _ _ found := nomatch found

theorem ramUsage_eq_billed_of_first_account :
    withFirst.ramUsage bob = withFirst.billed freeHost.toFcFunctions bob ∧
      0 < withFirst.ramUsage bob := by
  have created : systemOnly.newaccount systemContext systemAccountName bob soleKey soleKey =
      .ok withFirst := by
    rfl
  have step : RamStep freeHost.toFcFunctions systemOnly withFirst :=
    ⟨.newaccount systemContext systemAccountName bob soleKey soleKey, rfl, created⟩
  have booked := ramUsage_eq_billed_of_run systemOnly_codesHeld systemOnly_unused
    (.snoc .refl (.work step))
  exact ⟨booked.1 bob (by decide), by decide⟩

end ChainDb

end CodexRelay.Chain
