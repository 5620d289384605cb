import CodexRelay.Chain.ApplyContext.Model

/-!
Contract: permissions and the native actions of `eosio_contract.cpp`.

Owns:
- `permission_object::satisfies` and the calls of `authorization_manager` that write
  permissions;
- `newaccount`, `setcode`, `setabi`, `updateauth`, `deleteauth`, `linkauth`, `unlinkauth` and
  `canceldelay`;
- the permissions that the controller creates at genesis.

Does not own: who may send an action. `require_authorization` only asks whether the action
declares the account.
-/

namespace CodexRelay.Chain

/-! ### Authorities -/

namespace Authority

def getBillableSize (fc : FcFunctions) (auth : Authority) : Nat :=
  auth.accounts.length * billableSizeV 24 + auth.waits.length * billableSizeV 16 +
    (auth.keys.map fun k => billableSizeV 8 + fc.keyPackSize k.key).sum

/-- The number of bytes that are billed for a permission with this authority. -/
def permissionRamBytes (fc : FcFunctions) (auth : Authority) : Nat :=
  permissionObjectSize + auth.getBillableSize fc

/-- `operator<` of `permission_level`. -/
def levelLess (lhs rhs : PermissionLevel) : Prop :=
  lhs.actor < rhs.actor ∨ lhs.actor = rhs.actor ∧ lhs.permission < rhs.permission

instance (lhs rhs : PermissionLevel) : Decidable (levelLess lhs rhs) :=
  inferInstanceAs (Decidable (_ ∨ _))

/-- `validate`: the weights reach the threshold, and each list is sorted. -/
def validate (auth : Authority) : Bool :=
  decide (auth.keys.length + auth.accounts.length + auth.waits.length ≤ 2 ^ 16) &&
    decide (auth.threshold ≠ 0) &&
    decide ((auth.keys.map (·.key)).IsChain (· < ·)) &&
    decide ((auth.accounts.map (·.permission)).IsChain levelLess) &&
    decide ((auth.waits.head?.map (·.waitSec)) ≠ some 0) &&
    decide ((auth.waits.map (·.waitSec)).IsChain (· < ·)) &&
    decide (auth.threshold ≤ (auth.keys.map (·.weight)).sum + (auth.accounts.map (·.weight)).sum +
      (auth.waits.map (·.weight)).sum)

end Authority

/-! ### Permissions -/

namespace PermissionObject

/-- The loop of `satisfies`, which is at the permission `parent`. The result `none` stands for
the use of a permission that does not exist, or for a loop that has not ended. -/
def satisfiesLoop (permissions : IdTable PermissionObject) (id : Nat) :
    (fuel : Nat) → (parent : Nat) → Option Bool
  | 0, _ => none
  | fuel + 1, parent =>
    match permissions.find parent with
    | none => none
    | some permission =>
      if id = permission.parent then some true
      else if permission.parent = 0 then some false
      else satisfiesLoop permissions id fuel permission.parent

/-- `satisfies`: is the permission `id` equivalent to or greater than `otherId`? -/
def satisfies (permissions : IdTable PermissionObject) (fuel : Nat) (id : Nat)
    (permission : PermissionObject) (otherId : Nat) (other : PermissionObject) : Option Bool :=
  if permission.owner ≠ other.owner then some false
  else if id = otherId ∨ id = other.parent then some true
  else satisfiesLoop permissions id fuel other.parent

end PermissionObject

namespace ChainDb

/-- `authorization_manager::initialize_database`: the id 0 is reserved. -/
def initializePermissions : IdTable PermissionObject where
  rows := AList.singleton 0 ⟨0, 0, 0, {}⟩
  nextId := 1
  below := by
    intro id member
    rw [(AList.mem_insert _).mp member |>.resolve_right (AList.notMem_empty id)]
    exact Nat.one_pos

/-- The tables after `initialize_database` of the permissions and the resource limits, before
there are accounts. -/
def initializeDatabase (config : ResourceLimitsConfig) (gmr : GmrParameters) : ChainDb where
  accounts := ∅
  accountMetadata := ∅
  codes := ∅
  permissions := initializePermissions
  permissionLinks := ∅
  tableIds := .empty
  keyValues := ∅
  secondaries := ∅
  generatedTransactions := ∅
  ramCorrections := ∅
  resourceLimits := .initializeDatabase config gmr

variable (context : ApplyContext) (db : ChainDb)

def createPermission (account : AccountName) (name : PermissionName) (parent : Nat)
    (auth : Authority) : Checked (Nat × ChainDb) := do
  let (id, permissions) ← db.permissions.create PermissionObject.byOwner
    { parent, owner := account, name, auth }
  return (id, { db with permissions })

def modifyPermission (id : Nat) (permission : PermissionObject) (auth : Authority) :
    ChainDb :=
  { db with permissions := db.permissions.modify id { permission with auth } }

def removePermission (id : Nat) : Checked ChainDb := do
  eosAssert (∀ child ∈ db.permissions.rows.entries, child.2.parent ≠ id) .actionValidateException
    "Cannot remove a permission which has children. Remove the children first."
  return { db with permissions := db.permissions.remove id }

/-- The check of `validate_authority_precondition` on an account of an authority. -/
def validateAuthorityAccount (a : PermissionLevelWeight) : Checked Unit := do
  eosAssert (a.permission.actor ∈ db.accounts) .actionValidateException
    "account '${account}' does not exist"
  (if a.permission.permission = ownerName ∨ a.permission.permission = activeName ∨
      a.permission.permission = eosioCodeName then .ok ()
  else match db.getPermission a.permission with
    | .ok _ => .ok ()
    | .error e =>
      if e.code = .permissionQueryException then
        .error ⟨.actionValidateException, "permission '${perm}' does not exist"⟩
      else .error e)

def checkKeyList (control : Control) (key : PublicKey) : Checked Unit :=
  eosAssert (key ∉ control.keyBlacklist) .keyBlacklistException
    "public key '${key}' is on the key blacklist"

def validateAuthorityPrecondition (auth : Authority) : Checked Unit := do
  auth.accounts.forM db.validateAuthorityAccount
  (if context.enforceWhiteblacklist ∧ context.control.isProducingBlock then
    auth.keys.forM fun k => checkKeyList context.control k.key
  else .ok ())

/-! ### Accounts -/

def checkNewName (creator name : AccountName) : Checked Unit := do
  eosAssert (name ≠ 0) .actionValidateException "account name cannot be empty"
  eosAssert ((nameToString name).length ≤ 12) .actionValidateException
    "account names can only be 12 chars long"
  let _ ← Database.get db.accountMetadata creator
  eosAssert (creator = systemAccountName ∨ creator = producersAccountName ∨
      creator = chainConfigName ∨ ¬ ['c', 'o', 'd', 'e', 'x', '.'].isPrefixOf (nameToString name))
    .actionValidateException "only privileged accounts can have names that start with 'force.'"
  eosAssert (name ∉ db.accounts) .accountNameExistsException
    "Cannot create account named ${name}, as that name is already taken"

def newAccountRamBytes (fc : FcFunctions) (owner active : Authority) : Nat :=
  overheadPerAccountRamBytes + 2 * permissionObjectSize + owner.getBillableSize fc +
    active.getBillableSize fc

/-- `newaccount`, without the rethrow. -/
def createAccount (creator name : AccountName) (owner active : Authority) : Checked ChainDb := do
  context.requireAuthorization creator
  eosAssert owner.validate .actionValidateException "Invalid owner authority"
  eosAssert active.validate .actionValidateException "Invalid active authority"
  db.checkNewName creator name
  let accounts ← Database.create db.accounts name {}
  let accountMetadata ← Database.create db.accountMetadata name {}
  let db := { db with accounts, accountMetadata }
  db.validateAuthorityPrecondition context owner
  db.validateAuthorityPrecondition context active
  let (ownerId, db) ← db.createPermission name ownerName 0 owner
  let (_, db) ← db.createPermission name activeName ownerId active
  let resourceLimits ← db.resourceLimits.initializeAccount name
  { db with resourceLimits }.addRamUsage name
    (newAccountRamBytes context.host.toFcFunctions owner active)

def newaccount (creator name : AccountName)
    (owner active : Authority) : Checked ChainDb :=
  captureAndRethrow (db.createAccount context creator name owner active)

/-- `create_native_account`. The account has no memory limit yet that could be exceeded. -/
def createNativeAccount (host : Host) (db : ChainDb) (name : AccountName) (owner active : Authority)
    (abi : Bytes) : Checked ChainDb :=
  if name ∈ db.accounts then .ok db
  else do
    let accounts ← Database.create db.accounts name { abi }
    let accountMetadata ← Database.create db.accountMetadata name {}
    let db := { db with accounts, accountMetadata }
    let (ownerId, db) ← db.createPermission name ownerName 0 owner
    let (_, db) ← db.createPermission name activeName ownerId active
    let resourceLimits ← db.resourceLimits.initializeAccount name
    { db with resourceLimits }.addRamUsage name (newAccountRamBytes host.toFcFunctions owner active)

/-- The end of `initialize_database`: two more permissions of the producers. -/
def createProducersPermissions (majorityProducersPermissionName
    minorityProducersPermissionName : PermissionName) (activeProducersAuthority : Authority) :
    Checked ChainDb := do
  let (activeId, _) ← db.getPermission ⟨producersAccountName, activeName⟩
  let (majorityId, db) ← db.createPermission producersAccountName majorityProducersPermissionName
    activeId activeProducersAuthority
  let (_, db) ← db.createPermission producersAccountName minorityProducersPermissionName
    majorityId activeProducersAuthority
  return db

/-- `update_permission`. `update_eosio_authority`, `update_reward_authority` and
`update_relay_authority` of genesis and `update_producers_authority` of every block call it, each
with its own permissions and authorities. -/
def updatePermission (level : PermissionLevel) (auth : Authority) : Checked ChainDb := do
  let (id, permission) ← db.getPermission level
  return if permission.auth ≠ auth then db.modifyPermission id permission auth else db

/-- The part of `setcode` that gives up the old code; the result has its size. -/
def releaseCode (account : AccountMetadata) (codeHash : Digest) : Checked (Nat × ChainDb) :=
  if account.codeHash ≠ 0 then do
    let key := (account.codeHash, account.vmType, account.vmVersion)
    let oldCodeEntry ← Database.get db.codes key
    eosAssert (account.codeHash ≠ codeHash) .setExactCode
      "contract is already running this version of code"
    let codes :=
      if oldCodeEntry.codeRefCount = 1 then db.codes.erase key
      else db.codes.insert key ⟨oldCodeEntry.code, oldCodeEntry.codeRefCount - 1⟩
    return (oldCodeEntry.code.length * setcodeRamBytesMultiplier, { db with codes })
  else .ok (0, db)

/-- The part of `setcode` that stores the new code. -/
def acquireCode (codeHash : Digest) (vmtype vmversion : Nat) (code : Bytes) :
    ChainDb :=
  let key := (codeHash, vmtype, vmversion)
  match db.codes.lookup key with
  | some newCodeEntry =>
    { db with codes := db.codes.insert key ⟨newCodeEntry.code, newCodeEntry.codeRefCount + 1⟩ }
  | none => { db with codes := db.codes.insert key ⟨code, 1⟩ }

def setcode (account : AccountName) (vmtype vmversion : Nat) (code : Bytes) : Checked ChainDb := do
  context.requireAuthorization account
  eosAssert (vmtype = 0) .invalidContractVmType "code should be 0"
  eosAssert (vmversion = 0) .invalidContractVmVersion "version should be 0"
  (if code ≠ [] then context.host.validateWasm code else .ok ())
  let codeHash := if code ≠ [] then context.host.sha256 code else 0
  let metadata ← Database.get db.accountMetadata account
  eosAssert (code ≠ [] ∨ metadata.codeHash ≠ 0) .setExactCode "contract is already cleared"
  let (oldSize, db) ← db.releaseCode metadata codeHash
  let db := if code ≠ [] then db.acquireCode codeHash vmtype vmversion code else db
  let newSize := code.length * setcodeRamBytesMultiplier
  let db := { db with accountMetadata :=
    db.accountMetadata.insert account { codeHash, vmType := vmtype, vmVersion := vmversion } }
  (if newSize ≠ oldSize then db.addRamUsage account (newSize - oldSize : Int) else .ok db)

def setabi (account : AccountName) (abi : Bytes) : Checked ChainDb := do
  context.requireAuthorization account
  let object ← Database.get db.accounts account
  let oldSize := object.abi.length
  let newSize := abi.length
  let _ ← Database.get db.accountMetadata account
  let db := { db with accounts := db.accounts.insert account { object with abi } }
  (if newSize ≠ oldSize then db.addRamUsage account (newSize - oldSize : Int) else .ok db)

/-! ### Permissions -/

def checkUpdateNames (permission parent : PermissionName) : Checked Unit := do
  eosAssert (permission ≠ 0) .actionValidateException "Cannot create authority with empty name"
  eosAssert (¬ ['e', 'o', 's', 'i', 'o', '.'].isPrefixOf (nameToString permission))
    .actionValidateException "Permission names that start with 'eosio.' are reserved"
  eosAssert (¬ ['f', 'o', 'r', 'c', 'e', '.'].isPrefixOf (nameToString permission))
    .actionValidateException "Permission names that start with 'force.' are reserved"
  eosAssert (permission ≠ parent) .actionValidateException "Cannot set an authority as its own parent"

def checkUpdateParent (permission parent : PermissionName) : Checked Unit := do
  eosAssert (permission = activeName → parent = ownerName) .actionValidateException
    "Cannot change active authority's parent from owner"
  (if permission = ownerName then
    eosAssert (parent = 0) .actionValidateException "Cannot change owner authority's parent"
  else
    eosAssert (parent ≠ 0) .actionValidateException "Only owner permission can have empty parent")

def checkWaits (control : Control) (auth : Authority) : Checked Unit :=
  eosAssert (∀ wait, auth.waits.getLast? = some wait → wait.waitSec ≤ control.maxTransactionDelay)
    .actionValidateException
    "Cannot set delay longer than max_transacton_delay, which is ${max_delay} seconds"

def parentId (account : AccountName) (permission parent : PermissionName) : Checked Nat :=
  if permission ≠ ownerName then do
    let (id, _) ← db.getPermission ⟨account, parent⟩
    return id
  else .ok 0

def updateauth (account : AccountName)
    (permission parent : PermissionName) (auth : Authority) : Checked ChainDb := do
  context.requireAuthorization account
  checkUpdateNames permission parent
  let _ ← Database.get db.accounts account
  eosAssert auth.validate .actionValidateException "Invalid authority: ${auth}"
  checkUpdateParent permission parent
  checkWaits context.control auth
  db.validateAuthorityPrecondition context auth
  let existing ← db.findPermission ⟨account, permission⟩
  let parentId ← db.parentId account permission parent
  match existing with
  | some (id, existing) => do
      eosAssert (parentId = existing.parent) .actionValidateException
        "Changing parent authority is not currently supported"
      let oldSize := existing.auth.permissionRamBytes context.host.toFcFunctions
      let newSize := auth.permissionRamBytes context.host.toFcFunctions
      (db.modifyPermission id existing auth).addRamUsage existing.owner (newSize - oldSize : Int)
  | none => do
      let (_, db) ← db.createPermission account permission parentId auth
      db.addRamUsage account (auth.permissionRamBytes context.host.toFcFunctions)

def deleteauth (account : AccountName) (permission : PermissionName) : Checked ChainDb := do
  context.requireAuthorization account
  eosAssert (permission ≠ activeName) .actionValidateException "Cannot delete active authority"
  eosAssert (permission ≠ ownerName) .actionValidateException "Cannot delete owner authority"
  eosAssert (∀ link ∈ db.permissionLinks.entries, ¬ (link.1.1 = account ∧ link.2 = permission))
    .actionValidateException
    "Cannot delete a linked authority. Unlink the authority first. This authority is linked to ${code}::${type}."
  let (id, existing) ← db.getPermission ⟨account, permission⟩
  let oldSize := existing.auth.permissionRamBytes context.host.toFcFunctions
  let db ← db.removePermission id
  db.addRamUsage account (-oldSize)

/-! ### Links -/

/-- Does the permission that `linkauth` requires exist? -/
def linkTargetExists (account : AccountName)
    (requirement : PermissionName) : Prop :=
  if context.control.onlyLinkToExistingPermission then
    (db.permissions.findBy PermissionObject.byOwner (account, requirement)).isSome
  else ∃ permission ∈ db.permissions.rows.entries, permission.2.name = requirement

instance (context : ApplyContext) (db : ChainDb) (account : AccountName)
    (requirement : PermissionName) : Decidable (db.linkTargetExists context account requirement) := by
  unfold linkTargetExists
  infer_instance

/-- `linkauth`, without the rethrow. -/
def createLink (account code : AccountName)
    (type : ActionName) (requirement : PermissionName) : Checked ChainDb := do
  eosAssert (requirement ≠ 0) .actionValidateException "Required permission cannot be empty"
  context.requireAuthorization account
  eosAssert (account ∈ db.accounts) .accountQueryException "Failed to retrieve account: ${account}"
  eosAssert (code ∈ db.accounts) .accountQueryException
    "Failed to retrieve code for account: ${account}"
  eosAssert (requirement = eosioAnyName ∨ db.linkTargetExists context account requirement)
    .permissionQueryException "Failed to retrieve permission: ${permission}"
  let linked : ChainDb :=
    { db with permissionLinks := db.permissionLinks.insert (account, code, type) requirement }
  match db.permissionLinks.lookup (account, code, type) with
  | some requiredPermission => do
      eosAssert (requiredPermission ≠ requirement) .actionValidateException
        "Attempting to update required authority, but new requirement is same as old"
      return linked
  | none => linked.addRamUsage account permissionLinkObjectSize

def linkauth (account code : AccountName)
    (type : ActionName) (requirement : PermissionName) : Checked ChainDb :=
  captureAndRethrow (db.createLink context account code type requirement)

def unlinkauth (account code : AccountName) (type : ActionName) : Checked ChainDb := do
  context.requireAuthorization account
  eosAssert ((account, code, type) ∈ db.permissionLinks) .actionValidateException
    "Attempting to unlink authority, but no link found"
  let db ← db.addRamUsage account (-permissionLinkObjectSize)
  return { db with permissionLinks := db.permissionLinks.erase (account, code, type) }

def canceldelay (cancelingAuth : PermissionLevel) (trxId : TransactionId) : Checked ChainDb := do
  context.requireAuthorization cancelingAuth.actor
  let (_, db) ← db.cancelDeferredTransaction (transactionIdToSenderId trxId) 0
  return db

end ChainDb

end CodexRelay.Chain
