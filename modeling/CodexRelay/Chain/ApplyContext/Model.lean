import CodexRelay.Chain.ResourceLimits.Model

/-!
Contract: the tables that actions write, and the calls of `apply_context` that write them.

Owns:
- the objects of `account_object.hpp`, `permission_object.hpp`, `permission_link_object.hpp`,
  `code_object.hpp`, `contract_table_objects.hpp` and `generated_transaction_object.hpp`, with
  their billable sizes;
- storing, updating and removing rows of a contract, primary and secondary;
- scheduling, replacing, cancelling and retiring deferred transactions.

Does not own: the walk through a table with iterators. A call names the row that its iterator
stands for.

A call that throws is undone with the session it runs in.
-/

namespace CodexRelay.Chain

/-! ### Sizes -/

/-- `config::billable_size_v`: a size, rounded up to `billable_alignment`. -/
def billableSizeV (value : Nat) : Nat := (value + 16 - 1) / 16 * 16

def overheadPerRowPerIndexRamBytes : Nat := 32

def overheadPerAccountRamBytes : Nat := 2 * 1024

def setcodeRamBytesMultiplier : Nat := 10

def fixedOverheadSharedVectorRamBytes : Nat := 16

/-! ### Authorities and permissions -/

structure KeyWeight where
  key : PublicKey
  weight : Nat
deriving DecidableEq

structure PermissionLevelWeight where
  permission : PermissionLevel
  weight : Nat
deriving DecidableEq

structure WaitWeight where
  waitSec : Nat
  weight : Nat
deriving DecidableEq

/-- `authority`, `shared_authority`. -/
structure Authority where
  threshold : Nat := 0
  keys : List KeyWeight := []
  accounts : List PermissionLevelWeight := []
  waits : List WaitWeight := []
deriving DecidableEq

/-- `permission_object`; a permission without a parent has the parent 0. -/
structure PermissionObject where
  parent : Nat
  owner : AccountName
  name : PermissionName
  auth : Authority

def PermissionObject.byOwner (permission : PermissionObject) : AccountName × PermissionName :=
  (permission.owner, permission.name)

def permissionObjectSize : Nat :=
  billableSizeV (billableSizeV (3 * fixedOverheadSharedVectorRamBytes + 4) + 64 +
    5 * overheadPerRowPerIndexRamBytes)

def permissionLinkObjectSize : Nat := billableSizeV (40 + overheadPerRowPerIndexRamBytes * 3)

/-! ### Accounts and code -/

structure AccountObject where
  abi : Bytes := []

/-- `account_metadata_object`; the hash 0 stands for no code. -/
structure AccountMetadata where
  codeHash : Digest := 0
  vmType : Nat := 0
  vmVersion : Nat := 0

/-- The key of a `code_object`: its hash, `vm_type` and `vm_version`. -/
abbrev CodeKey := Digest × Nat × Nat

structure CodeObject where
  code : Bytes
  codeRefCount : Nat

/-! ### Rows of contracts -/

structure TableIdObject where
  code : AccountName
  scope : Nat
  table : Nat
  payer : AccountName
  count : Nat := 0

def TableIdObject.byCodeScopeTable (tid : TableIdObject) : AccountName × Nat × Nat :=
  (tid.code, tid.scope, tid.table)

def tableIdObjectSize : Nat := billableSizeV (44 + overheadPerRowPerIndexRamBytes * 2)

structure KeyValueObject where
  payer : AccountName
  value : Bytes

def keyValueObjectSize : Nat := billableSizeV (32 + 8 + 4 + overheadPerRowPerIndexRamBytes * 2)

inductive SecondaryType where
  | index64
  | index128
  | index256
  | indexDouble
  | indexLongDouble
deriving DecidableEq

def SecondaryType.keySize : SecondaryType → Nat
  | .index64 => 8
  | .index128 => 16
  | .index256 => 32
  | .indexDouble => 8
  | .indexLongDouble => 16

/-- `secondary_index::index_object`. -/
structure SecondaryObject where
  payer : AccountName
  secondaryKey : Nat

/-- `billable_size_v` of the objects of a secondary index. -/
def SecondaryType.objectSize (type : SecondaryType) : Nat :=
  billableSizeV (24 + type.keySize + overheadPerRowPerIndexRamBytes * 3)

/-- `generated_transaction_object`, without the sender and the id that it gave, which are its
key. -/
structure GeneratedTransaction where
  trxId : TransactionId
  payer : AccountName
  delayUntil : Nat
  expiration : Nat
  published : Nat
  packedTrx : Bytes
deriving DecidableEq

def generatedTransactionObjectSize : Nat :=
  billableSizeV (96 + 4 + overheadPerRowPerIndexRamBytes * 5)

def GeneratedTransaction.ramBytes (gtx : GeneratedTransaction) : Nat :=
  generatedTransactionObjectSize + gtx.packedTrx.length

/-! ### The tables -/

structure ChainDb where
  accounts : AList fun _ : AccountName => AccountObject
  accountMetadata : AList fun _ : AccountName => AccountMetadata
  codes : AList fun _ : CodeKey => CodeObject
  permissions : IdTable PermissionObject
  /-- by account, code and type of the action: the required permission -/
  permissionLinks : AList fun _ : AccountName × AccountName × ActionName => PermissionName
  tableIds : IdTable TableIdObject
  /-- by `t_id` and primary key -/
  keyValues : AList fun _ : Nat × Nat => KeyValueObject
  secondaries : AList fun _ : SecondaryType × Nat × Nat => SecondaryObject
  /-- by sender and sender id -/
  generatedTransactions : AList fun _ : AccountName × Nat => GeneratedTransaction
  ramCorrections : AList fun _ : AccountName => Nat
  resourceLimits : ResourceLimits

/-- The functions of `fc` that decide what objects cost. -/
structure FcFunctions where
  /-- `fc::sha256::hash` -/
  sha256 : Bytes → Digest
  /-- `fc::raw::pack_size` of a key -/
  keyPackSize : PublicKey → Nat

/-- The functions outside the tables that the calls use: those of `fc` and of the wasm
interface, the checks of authorizations and lists, and the net usage of the transaction. -/
structure Host extends FcFunctions where
  /-- `wasm_interface::validate` -/
  validateWasm : Bytes → Checked Unit
  /-- `fc::raw::pack` of a transaction -/
  packTransaction : Transaction → Bytes
  /-- `transaction::id` -/
  transactionId : Transaction → TransactionId
  packGenerationContext : GenerationContext → Bytes
  unpackGenerationContext : Bytes → Option GenerationContext
  /-- `authorization_manager::check_authorization` for a receiver, actions and a delay -/
  checkAuthorization : ChainDb → AccountName → List Action → Nat → Checked Unit
  /-- `controller::check_actor_list` -/
  checkActorList : List AccountName → Checked Unit
  /-- `transaction_context::add_net_usage` -/
  addNetUsage : Nat → Checked Unit

structure Control where
  isProducingBlock : Bool
  skipAuthCheck : Bool
  disableAllSubjectiveMitigations : Bool
  allowRamBillingInNotify : Bool
  keyBlacklist : List PublicKey
  senderBypassWhiteblacklist : List AccountName
  pendingBlockTime : Nat
  headBlockId : BlockId
  maxTransactionDelay : Nat
  deferredTrxExpirationWindow : Nat
  basePerTransactionNetUsage : Nat
  ramRestrictions : Bool
  replaceDeferred : Bool
  noDuplicateDeferredId : Bool
  restrictActionToSelf : Bool
  onlyLinkToExistingPermission : Bool

def Control.isRamBillingInNotifyAllowed (control : Control) : Bool :=
  control.disableAllSubjectiveMitigations || !control.isProducingBlock ||
    control.allowRamBillingInNotify

/-- `apply_context`, as far as its calls read it. -/
structure ApplyContext where
  host : Host
  control : Control
  receiver : AccountName
  act : Action
  privileged : Bool
  enforceWhiteblacklist : Bool
  trxId : TransactionId

namespace ApplyContext

def hasAuthorization (context : ApplyContext) (account : AccountName) : Bool :=
  context.act.authorization.any (·.actor = account)

def requireAuthorization (context : ApplyContext) (account : AccountName) : Checked Unit :=
  eosAssert (context.hasAuthorization account) .missingAuthException
    "missing authority of ${account}"

end ApplyContext

namespace ChainDb

variable (context : ApplyContext) (db : ChainDb)

def addRamUsage (account : AccountName) (ramDelta : Int) : Checked ChainDb := do
  let resourceLimits ← db.resourceLimits.addPendingRamUsage account ramDelta
  return { db with resourceLimits }

def checkDbUsage (payer : AccountName) (delta : Int) : Checked Unit :=
  if 0 < delta ∧ ¬ (context.privileged ∨ payer = context.receiver ∨ context.control.ramRestrictions)
  then do
    eosAssert (context.control.isRamBillingInNotifyAllowed ∨ context.receiver = context.act.account)
      .subjectiveBlockProductionException "Cannot charge RAM to other accounts during notify."
    context.requireAuthorization payer
  else .ok ()

def updateDbUsage (payer : AccountName) (delta : Int) : Checked ChainDb := do
  checkDbUsage context payer delta
  db.addRamUsage payer delta

/-! ### Tables of contracts -/

def findOrCreateTable (code : AccountName)
    (scope table : Nat) (payer : AccountName) : Checked (Nat × ChainDb) :=
  match db.tableIds.findBy TableIdObject.byCodeScopeTable (code, scope, table) with
  | some (id, _) => .ok (id, db)
  | none => do
      let db ← db.updateDbUsage context payer tableIdObjectSize
      let (id, tableIds) ←
        db.tableIds.create TableIdObject.byCodeScopeTable { code, scope, table, payer }
      return (id, { db with tableIds })

def removeTable (id : Nat) (tid : TableIdObject) : Checked ChainDb := do
  let db ← db.updateDbUsage context tid.payer (-tableIdObjectSize)
  return { db with tableIds := db.tableIds.remove id }

/-- `itr_cache.get_table`, of the table of a row. -/
def getTable (id : Nat) : Checked TableIdObject :=
  (db.tableIds.find id).elim
    (.error ⟨.tableNotInCache, "an invariant was broken, table should be in cache"⟩) .ok

/-- `++t.count` of the table. -/
def countUp (id : Nat) : ChainDb :=
  match db.tableIds.find id with
  | none => db
  | some tid =>
    { db with tableIds := db.tableIds.modify id { tid with count := (tid.count + 1) % 2 ^ 32 } }

/-- The end of a removal: `--t.count` of the table, which is removed with its last row. -/
@[irreducible] def countDown (id : Nat) (tid : TableIdObject) : Checked ChainDb :=
  let tid := { tid with count := (tid.count + (2 ^ 32 - 1)) % 2 ^ 32 }
  let db := { db with tableIds := db.tableIds.modify id tid }
  if tid.count = 0 then db.removeTable context id tid else .ok db

/-- `itr_cache.get`, of a row. -/
def getRow {κ : Type} [DecidableEq κ] {ρ : κ → Type} (rows : AList ρ) (key : κ) : Checked (ρ key) :=
  (rows.lookup key).elim (.error ⟨.tableOperationNotPermitted, "dereference of deleted object"⟩) .ok

/-- `payer`, or the payer of the row when none is given. -/
def payerOr (payer existing : AccountName) : AccountName := if payer = 0 then existing else payer

def dbStoreI64 (code : AccountName) (scope table : Nat)
    (payer : AccountName) (id : Nat) (buffer : Bytes) : Checked ChainDb := do
  let (tableId, db) ← db.findOrCreateTable context code scope table payer
  eosAssert (payer ≠ 0) .invalidTablePayer "must specify a valid account to pay for new record"
  let keyValues ← Database.create db.keyValues (tableId, id) ⟨payer, buffer⟩
  let db := { db with keyValues }.countUp tableId
  db.updateDbUsage context payer (buffer.length + keyValueObjectSize : Nat)

/-- The billing of `db_update_i64`. -/
def billUpdate (oldPayer newPayer : AccountName)
    (oldSize newSize : Int) : Checked ChainDb :=
  if oldPayer ≠ newPayer then do
    let db ← db.updateDbUsage context oldPayer (-oldSize)
    db.updateDbUsage context newPayer newSize
  else if oldSize ≠ newSize then db.updateDbUsage context oldPayer (newSize - oldSize)
  else .ok db

def dbUpdateI64 (row : Nat × Nat) (payer : AccountName) (buffer : Bytes) : Checked ChainDb := do
  let obj ← getRow db.keyValues row
  let tableObj ← db.getTable row.1
  eosAssert (tableObj.code = context.receiver) .tableAccessViolation "db access violation"
  let oldSize := obj.value.length + keyValueObjectSize
  let newSize := buffer.length + keyValueObjectSize
  let payer := payerOr payer obj.payer
  let db ← db.billUpdate context obj.payer payer oldSize newSize
  return { db with keyValues := db.keyValues.insert row ⟨payer, buffer⟩ }

def dbRemoveI64 (row : Nat × Nat) : Checked ChainDb := do
  let obj ← getRow db.keyValues row
  let tableObj ← db.getTable row.1
  eosAssert (tableObj.code = context.receiver) .tableAccessViolation "db access violation"
  let db ← db.updateDbUsage context obj.payer (-(obj.value.length + keyValueObjectSize : Nat))
  { db with keyValues := db.keyValues.erase row }.countDown context row.1 tableObj

def indexStore (type : SecondaryType) (scope table : Nat)
    (payer : AccountName) (id secondaryKey : Nat) : Checked ChainDb := do
  eosAssert (payer ≠ 0) .invalidTablePayer "must specify a valid account to pay for new record"
  let (tableId, db) ← db.findOrCreateTable context context.receiver scope table payer
  let secondaries ← Database.create db.secondaries (type, tableId, id) ⟨payer, secondaryKey⟩
  let db := { db with secondaries }.countUp tableId
  db.updateDbUsage context payer type.objectSize

/-- `generic_index::remove`, which pays back before it checks the access. -/
def indexRemove (row : SecondaryType × Nat × Nat) : Checked ChainDb := do
  let obj ← getRow db.secondaries row
  let db ← db.updateDbUsage context obj.payer (-row.1.objectSize)
  let tableObj ← db.getTable row.2.1
  eosAssert (tableObj.code = context.receiver) .tableAccessViolation "db access violation"
  { db with secondaries := db.secondaries.erase row }.countDown context row.2.1 tableObj

def indexUpdate (row : SecondaryType × Nat × Nat)
    (payer : AccountName) (secondaryKey : Nat) : Checked ChainDb := do
  let obj ← getRow db.secondaries row
  let tableObj ← db.getTable row.2.1
  eosAssert (tableObj.code = context.receiver) .tableAccessViolation "db access violation"
  let payer := payerOr payer obj.payer
  let billingSize := row.1.objectSize
  let db ← db.billUpdate context obj.payer payer billingSize billingSize
  return { db with secondaries := db.secondaries.insert row ⟨payer, secondaryKey⟩ }

/-! ### Deferred transactions -/

def findPermission (level : PermissionLevel) : Checked (Option (Nat × PermissionObject)) := do
  eosAssert (level.actor ≠ 0 ∧ level.permission ≠ 0) .invalidPermission "Invalid permission"
  return db.permissions.findBy PermissionObject.byOwner (level.actor, level.permission)

def getPermission (level : PermissionLevel) : Checked (Nat × PermissionObject) := do
  let permission ← db.findPermission level
  permission.elim (.error ⟨.permissionQueryException,
    "Failed to retrieve permission: ${level} (${what})"⟩) .ok

/-- The checks of `validate_referenced_accounts` on an action without authorizations. -/
def validateContextFreeAction (a : Action) : Checked Unit := do
  eosAssert (a.account ∈ db.accounts) .transactionException
    "action's code account '${account}' does not exist"
  eosAssert (a.authorization = []) .transactionException
    "context-free actions cannot have authorizations"

/-- The checks of `validate_referenced_accounts` on an authorization. -/
def validateActor (auth : PermissionLevel) : Checked Unit := do
  eosAssert (auth.actor ∈ db.accounts) .transactionException
    "action's authorizing actor '${account}' does not exist"
  let permission ← db.findPermission auth
  eosAssert permission.isSome .transactionException
    "action's authorizations include a non-existent permission: {permission}"

/-- The checks of `validate_referenced_accounts` on an action. -/
def validateAction (a : Action) : Checked Unit := do
  eosAssert (a.account ∈ db.accounts) .transactionException
    "action's code account '${account}' does not exist"
  a.authorization.forM db.validateActor

def validateReferencedAccounts (host : Host) (db : ChainDb) (trx : Transaction) (enforce : Bool) :
    Checked Unit := do
  trx.contextFreeActions.forM db.validateContextFreeAction
  trx.actions.forM db.validateAction
  eosAssert (∃ a ∈ trx.actions, a.authorization ≠ []) .txNoAuths
    "transaction must have at least one authorization"
  (if enforce then
    host.checkActorList ((trx.actions.flatMap (·.authorization)).map (·.actor))
  else .ok ())

def checkGenerationContext (senderId : Nat) (given : GenerationContext) : Checked Unit := do
  eosAssert (given.sender = context.receiver) .illFormedDeferredTransactionGenerationContext
    "deferred transaction generaction context contains mismatching sender"
  eosAssert (given.senderId = senderId) .illFormedDeferredTransactionGenerationContext
    "deferred transaction generaction context contains mismatching sender_id"
  eosAssert (given.senderTrxId = context.trxId) .illFormedDeferredTransactionGenerationContext
    "deferred transaction generaction context contains mismatching sender_trx_id"

def deferredExtensions (senderId : Nat) (trx : Transaction) : Checked (List (Nat × Bytes)) := do
  let exts ← trx.validateAndExtractExtensions context.host.unpackGenerationContext
  match exts with
  | [] => return trx.transactionExtensions ++
      [(0, context.host.packGenerationContext ⟨context.trxId, senderId, context.receiver⟩)]
  | given :: others => do
      eosAssert (others = []) .invalidTransactionExtension
        "only one extension is currently supported for deferred transactions"
      checkGenerationContext context senderId given
      return trx.transactionExtensions

/-- The deferred transaction that is stored; times are in microseconds. -/
def prepareDeferred (senderId : Nat) (trx : Transaction) : Checked Transaction :=
  if context.control.noDuplicateDeferredId then do
    let transactionExtensions ← deferredExtensions context senderId trx
    return { trx with transactionExtensions, expiration := 0, refBlockNum := 0, refBlockPrefix := 0 }
  else
    return { trx with
      expiration := (context.control.pendingBlockTime + 999999) / 1000000
      refBlockNum := BlockHeader.numFromId context.control.headBlockId % 2 ^ 16
      refBlockPrefix := context.control.headBlockId / 2 ^ 128 % 2 ^ 32 }

/-- The check of `schedule_deferred_transaction` on the payer. -/
def checkDeferredPayer (payer : AccountName) : Checked Unit :=
  if payer = context.receiver then .ok ()
  else if context.control.ramRestrictions then do
    eosAssert (context.receiver = context.act.account) .actionValidateException
      "cannot bill RAM usage of deferred transactions to another account within notify context"
    eosAssert (context.hasAuthorization payer) .actionValidateException
      "cannot bill RAM usage of deferred transaction to another account that has not authorized the action: ${payer}"
  else context.requireAuthorization payer

/-- The authorization of a deferred transaction. A contract that only sends actions to itself
gets along without it in blocks of others, before `restrict_action_to_self`. -/
def checkDeferredAuthorization (trx : Transaction) : Checked Unit :=
  match context.host.checkAuthorization db context.receiver trx.actions trx.delaySec with
  | .ok () => .ok ()
  | .error e =>
    if context.control.restrictActionToSelf ∨ ∃ a ∈ trx.actions, a.account ≠ context.receiver then
      .error e
    else if context.control.isProducingBlock then
      .error ⟨.subjectiveBlockProductionException,
        if e.code.isFc then
          "Authorization failure with sent deferred transaction consisting only of actions to self"
        else
          "Unexpected exception occurred validating sent deferred transaction consisting only of actions to self"⟩
    else .ok ()

def addToRamCorrection (account : AccountName) (ramBytes : Nat) : ChainDb :=
  { db with ramCorrections :=
      db.ramCorrections.insert account ((db.ramCorrections.lookup account).getD 0 + ramBytes) }

/-- The payer of a transaction that is replaced gets back its bytes. -/
def refundReplaced (replaced : GeneratedTransaction) : Checked ChainDb :=
  if context.control.replaceDeferred then
    db.addRamUsage replaced.payer (-replaced.ramBytes)
  else .ok (db.addToRamCorrection replaced.payer replaced.ramBytes)

/-- `db.create<generated_transaction_object>`; the id of the transaction is unique, too. -/
def createGenerated (sender : AccountName) (senderId : Nat)
    (gtx : GeneratedTransaction) : Checked ChainDb := do
  eosAssert (∀ other ∈ db.generatedTransactions.entries, other.2.trxId ≠ gtx.trxId) .logicError
    "could not insert object, most likely a uniqueness constraint was violated"
  let generatedTransactions ← Database.create db.generatedTransactions (sender, senderId) gtx
  return { db with generatedTransactions }

def generate (host : Host) (control : Control) (trxId : TransactionId) (payer : AccountName)
    (delaySec : Nat) (trx : Transaction) : GeneratedTransaction where
  trxId
  payer
  published := control.pendingBlockTime
  delayUntil := control.pendingBlockTime + delaySec * 1000000
  expiration := control.pendingBlockTime + delaySec * 1000000 +
    control.deferredTrxExpirationWindow * 1000000
  packedTrx := host.packTransaction trx

/-- The part of `schedule_deferred_transaction` that stores the transaction, or puts it in the
place of an existing one. -/
def storeDeferred (senderId : Nat) (payer : AccountName)
    (trx : Transaction) (replaceExisting : Bool) : Checked ChainDb :=
  match db.generatedTransactions.lookup (context.receiver, senderId) with
  | some replaced => do
      eosAssert replaceExisting .deferredTxDuplicate
        "deferred transaction with the same sender_id and payer already exists"
      eosAssert (context.control.replaceDeferred ∨ ¬ context.control.isProducingBlock ∨
          context.control.disableAllSubjectiveMitigations) .subjectiveBlockProductionException
        "Replacing a deferred transaction is temporarily disabled."
      let db ← db.refundReplaced context replaced
      let trxId :=
        if context.control.replaceDeferred then context.host.transactionId trx else replaced.trxId
      { db with generatedTransactions :=
          db.generatedTransactions.erase (context.receiver, senderId) }.createGenerated
        context.receiver senderId (generate context.host context.control trxId payer trx.delaySec trx)
  | none =>
    db.createGenerated context.receiver senderId (generate context.host context.control
      (context.host.transactionId trx) payer trx.delaySec trx)

/-- The checks of `schedule_deferred_transaction` before the transaction is stored. -/
def checkDeferred (senderId : Nat) (payer : AccountName)
    (trx : Transaction) : Checked Transaction := do
  eosAssert (trx.contextFreeActions = []) .cfaInsideGeneratedTx
    "context free actions are not currently allowed in generated transactions"
  let enforce := context.enforceWhiteblacklist && context.control.isProducingBlock &&
    !context.control.senderBypassWhiteblacklist.contains context.receiver
  db.validateReferencedAccounts context.host trx enforce
  let trx ← prepareDeferred context senderId trx
  context.host.addNetUsage (context.control.basePerTransactionNetUsage + 32)
  (if context.control.skipAuthCheck ∨ context.privileged then .ok ()
  else do
    checkDeferredPayer context payer
    db.checkDeferredAuthorization context trx)
  return trx

def scheduleDeferredTransaction (senderId : Nat)
    (payer : AccountName) (trx : Transaction) (replaceExisting : Bool) : Checked ChainDb := do
  let trx ← db.checkDeferred context senderId payer trx
  let db ← db.storeDeferred context senderId payer trx replaceExisting
  eosAssert (context.control.ramRestrictions ∨ context.control.isRamBillingInNotifyAllowed ∨
      context.receiver = context.act.account ∨ context.receiver = payer ∨ context.privileged)
    .subjectiveBlockProductionException "Cannot charge RAM to other accounts during notify."
  db.addRamUsage payer
    (generatedTransactionObjectSize + (context.host.packTransaction trx).length : Nat)

/-- `cancel_deferred_transaction`; the result says whether there was one. -/
def cancelDeferredTransaction (senderId : Nat) (sender : AccountName) : Checked (Bool × ChainDb) :=
  match db.generatedTransactions.lookup (sender, senderId) with
  | none => .ok (false, db)
  | some gto => do
      let db ← db.addRamUsage gto.payer (-gto.ramBytes)
      return (true, { db with generatedTransactions :=
        db.generatedTransactions.erase (sender, senderId) })

/-- `transaction_id_to_sender_id`: the low 128 bits of the digest, with its last two words
exchanged. -/
def transactionIdToSenderId (trxId : TransactionId) : Nat :=
  trxId % 2 ^ 64 * 2 ^ 64 + trxId / 2 ^ 64 % 2 ^ 64

/-- `transaction_context::schedule_transaction`, for an input transaction with a delay. -/
def scheduleTransaction (host : Host) (control : Control) (db : ChainDb) (id : TransactionId)
    (delaySec : Nat) (trx : Transaction) : Checked ChainDb := do
  (if trx.delaySec = 0 then host.addNetUsage (control.basePerTransactionNetUsage + 32) else .ok ())
  let db ← db.createGenerated 0 (transactionIdToSenderId id)
    (generate host control id trx.firstAuthorizer delaySec trx)
  db.addRamUsage trx.firstAuthorizer
    (generatedTransactionObjectSize + (host.packTransaction trx).length : Nat)

/-- `remove_scheduled_transaction`, with which every retirement of a deferred transaction
begins. -/
def removeScheduledTransaction (sender : AccountName) (senderId : Nat) : Checked ChainDb := do
  let gto ← Database.get db.generatedTransactions (sender, senderId)
  let resourceLimits ← db.resourceLimits.addPendingRamUsage gto.payer (-gto.ramBytes)
  return { db with
    resourceLimits
    generatedTransactions := db.generatedTransactions.erase (sender, senderId) }

end ChainDb

end CodexRelay.Chain
