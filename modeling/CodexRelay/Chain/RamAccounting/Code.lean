import CodexRelay.Chain.RamAccounting.Calls

/-!
Contract: accounts that share a code are billed for it one by one.

Owns:
- `CodesHeld`, that the `code_ref_count` of a code is the number of accounts that run it;
- that `newaccount` and `setcode` keep this, and the debts.

A code is found by its hash. An account that sets a code whose hash is that of another stored
code would be billed for a size that is not stored; `setcode` is asked not to do this.
-/

namespace CodexRelay.Chain.ChainDb

open Library AList

variable {fc : FcFunctions} {db db' : ChainDb} {context : ApplyContext} {account : AccountName}
  {refunded : List AccountName} {codes codes' : AList fun _ : CodeKey => CodeObject}
  {metadata : AccountMetadata} {key : CodeKey}

variable {entry : CodeObject} {name : AccountName}

variable {codeHash : Digest} {other creator : AccountName} {otherMetadata : AccountMetadata}
  {owner active : Authority}

/-! ### Shared code -/

def runs (key : CodeKey) (metadata : AccountMetadata) : Nat :=
  if metadata.codeHash ≠ 0 ∧ metadata.codeKey = key then 1 else 0

def codeUsers (accountMetadata : AList fun _ : AccountName => AccountMetadata) (key : CodeKey) : Nat :=
  rowSum (fun _ metadata => runs key metadata) accountMetadata

/-- The `code_ref_count` of a code; one that is not stored is not used. -/
def refsAt (codes : AList fun _ : CodeKey => CodeObject) (key : CodeKey) : Nat :=
  rowAt (fun _ entry => entry.codeRefCount) codes key

def codeAt (codes : AList fun _ : CodeKey => CodeObject) (key : CodeKey) : Option Bytes :=
  (codes.lookup key).map (·.code)

def CodesUsed (codes : AList fun _ : CodeKey => CodeObject) : Prop :=
  ∀ key entry, codes.lookup key = some entry → 0 < entry.codeRefCount

/-- Each code is stored for the accounts that run it. -/
structure CodesHeld (db : ChainDb) : Prop where
  counted (key : CodeKey) : refsAt db.codes key = codeUsers db.accountMetadata key
  used : CodesUsed db.codes

theorem runs_self (named : metadata.codeHash ≠ 0) : runs metadata.codeKey metadata = 1 :=
  if_pos ⟨named, rfl⟩

theorem runs_of_none (unnamed : metadata.codeHash = 0) : runs key metadata = 0 :=
  if_neg fun runs => runs.1 unnamed

theorem runs_of_ne (different : key ≠ metadata.codeKey) : runs key metadata = 0 :=
  if_neg fun runs => different runs.2.symm

theorem refsAt_of_lookup (found : codes.lookup key = some entry) :
    refsAt codes key = entry.codeRefCount :=
  rowAt_of_lookup _ found

theorem refsAt_of_none (missing : codes.lookup key = none) : refsAt codes key = 0 :=
  rowAt_of_none _ missing

theorem codeAt_of_lookup (found : codes.lookup key = some entry) :
    codeAt codes key = some entry.code := by
  rw [codeAt, found]
  rfl

section

variable (same : codes'.lookup key = codes.lookup key)

include same

theorem refsAt_congr : refsAt codes' key = refsAt codes key := by
  rw [refsAt, refsAt, rowAt, rowAt, same]

theorem codeAt_congr : codeAt codes' key = codeAt codes key := by
  rw [codeAt, codeAt, same]

end

theorem exists_lookup_of_refsAt (referenced : refsAt codes key ≠ 0) :
    ∃ entry, codes.lookup key = some entry := by
  refine Option.ne_none_iff_exists'.mp fun missing => referenced ?_
  exact refsAt_of_none missing

theorem codeBytes_def : codeBytes codes metadata = if metadata.codeHash = 0 then 0
    else (codeAt codes metadata.codeKey).elim 0 fun code => code.length * setcodeRamBytesMultiplier := by
  rw [codeBytes, codeAt, Option.elim_map]
  rfl

theorem codeBytes_eq (named : metadata.codeHash ≠ 0) {code : Bytes}
    (stored : codeAt codes metadata.codeKey = some code) :
    codeBytes codes metadata = code.length * setcodeRamBytesMultiplier := by
  rw [codeBytes_def, if_neg named, stored]
  rfl

theorem codeBytes_congr (same : metadata.codeHash ≠ 0 →
    codeAt codes' metadata.codeKey = codeAt codes metadata.codeKey) :
    codeBytes codes' metadata = codeBytes codes metadata := by
  rw [codeBytes_def, codeBytes_def]
  split_ifs with unnamed
  · rfl
  · rw [same unnamed]

/-! ### Giving up and taking up code -/

structure Released (codes codes' : AList fun _ : CodeKey => CodeObject) (old : AccountMetadata) :
    Prop where
  refs (key : CodeKey) : refsAt codes' key + runs key old = refsAt codes key
  code (key : CodeKey) : refsAt codes' key ≠ 0 → codeAt codes' key = codeAt codes key
  used : CodesUsed codes'

structure Acquired (codes codes' : AList fun _ : CodeKey => CodeObject) (new : AccountMetadata)
    (code : Bytes) : Prop where
  refs (key : CodeKey) : refsAt codes' key = refsAt codes key + runs key new
  kept (key : CodeKey) : refsAt codes key ≠ 0 → codeAt codes' key = codeAt codes key
  stored : new.codeHash ≠ 0 → codeAt codes' new.codeKey = some code
  used : CodesUsed codes'

section

variable (used : CodesUsed codes) (named : metadata.codeHash ≠ 0)
  (found : codes.lookup metadata.codeKey = some entry)

include used named found

theorem released_of_last (last : entry.codeRefCount = 1) :
    Released codes (codes.erase metadata.codeKey) metadata where
  refs key := by
    by_cases same : key = metadata.codeKey
    · subst same
      rw [refsAt_of_none (lookup_erase _ _), runs_self named, refsAt_of_lookup found, last]
    · rw [refsAt_congr (lookup_erase_ne same), runs_of_ne same, add_zero]
  code key referenced := by
    by_cases same : key = metadata.codeKey
    · subst same
      exact absurd (refsAt_of_none (lookup_erase _ _)) referenced
    · exact codeAt_congr (lookup_erase_ne same)
  used key other stored := by
    by_cases same : key = metadata.codeKey
    · subst same
      rw [lookup_erase] at stored
      cases stored
    · rw [lookup_erase_ne same] at stored
      exact used key other stored

theorem released_of_shared (shared : entry.codeRefCount ≠ 1) :
    Released codes (codes.insert metadata.codeKey ⟨entry.code, entry.codeRefCount - 1⟩) metadata where
  refs key := by
    by_cases same : key = metadata.codeKey
    · subst same
      have positive := used _ entry found
      rw [refsAt_of_lookup (lookup_insert codes), runs_self named, refsAt_of_lookup found]
      exact Nat.sub_add_cancel positive
    · rw [refsAt_congr (lookup_insert_ne same), runs_of_ne same, add_zero]
  code key _ := by
    by_cases same : key = metadata.codeKey
    · subst same
      rw [codeAt_of_lookup (lookup_insert codes), codeAt_of_lookup found]
    · exact codeAt_congr (lookup_insert_ne same)
  used key other stored := by
    by_cases same : key = metadata.codeKey
    · subst same
      have positive := used _ entry found
      rw [lookup_insert] at stored
      obtain rfl := Option.some.inj stored
      exact Nat.sub_pos_of_lt (by omega)
    · rw [lookup_insert_ne same] at stored
      exact used key other stored

end

section

variable (used : CodesUsed codes) (unnamed : metadata.codeHash = 0)

include used unnamed

theorem Released.refl : Released codes codes metadata where
  refs key := by rw [runs_of_none unnamed, add_zero]
  code _ _ := rfl
  used := used

theorem Acquired.refl (code : Bytes) : Acquired codes codes metadata code where
  refs key := by rw [runs_of_none unnamed, add_zero]
  kept _ _ := rfl
  stored named := absurd unnamed named
  used := used

end

/-- One more user of a code that is stored already, or the first one. -/
theorem acquired_of_insert (metadata : AccountMetadata) {code : Bytes} (used : CodesUsed codes)
    (named : metadata.codeHash ≠ 0)
    (same : ∀ old, codes.lookup metadata.codeKey = some old → old.code = code)
    (counts : entry.codeRefCount = refsAt codes metadata.codeKey + 1) (stores : entry.code = code) :
    Acquired codes (codes.insert metadata.codeKey entry) metadata code where
  refs key := by
    by_cases equal : key = metadata.codeKey
    · subst equal
      rw [refsAt_of_lookup (lookup_insert codes), runs_self named, counts]
    · rw [refsAt_congr (lookup_insert_ne equal), runs_of_ne equal, add_zero]
  kept key referenced := by
    by_cases equal : key = metadata.codeKey
    · subst equal
      obtain ⟨old, found⟩ := exists_lookup_of_refsAt referenced
      rw [codeAt_of_lookup (lookup_insert codes), codeAt_of_lookup found, stores, same old found]
    · exact codeAt_congr (lookup_insert_ne equal)
  stored _ := by rw [codeAt_of_lookup (lookup_insert codes), stores]
  used key other found := by
    by_cases equal : key = metadata.codeKey
    · subst equal
      rw [lookup_insert] at found
      obtain rfl := Option.some.inj found
      omega
    · rw [lookup_insert_ne equal] at found
      exact used key other found

theorem releaseCode_meets (used : CodesUsed db.codes) : Meets (db'.Blames fc refunded)
      (fun result : Nat × ChainDb => result.1 = codeBytes db.codes metadata ∧
        ∃ codes, result.2 = { db with codes } ∧ Released db.codes codes metadata)
      (db.releaseCode metadata codeHash) := by
  unfold releaseCode
  split_ifs with named
  · refine (quiet_get _ _).next fun entry got => check_next (by decide) fun _ => ?_
    have found := Database.get_eq_ok.mp got
    refine ⟨(codeBytes_eq named (codeAt_of_lookup found)).symm, _, rfl, ?_⟩
    split_ifs with last
    · exact released_of_last used named found last
    · exact released_of_shared used named found last
  · exact ⟨by rw [codeBytes, if_pos (not_not.mp named)], _, rfl, .refl used (not_not.mp named)⟩

theorem acquireCode_eq {code : Bytes} (used : CodesUsed db.codes) (named : codeHash ≠ 0)
    (same : ∀ old, db.codes.lookup (codeHash, 0, 0) = some old → old.code = code) :
    ∃ codes, db.acquireCode codeHash 0 0 code = { db with codes } ∧
      Acquired db.codes codes { codeHash } code := by
  unfold acquireCode
  cases found : db.codes.lookup (codeHash, 0, 0) with
  | some entry =>
    have took : Acquired db.codes
        (db.codes.insert (codeHash, 0, 0) ⟨entry.code, entry.codeRefCount + 1⟩) { codeHash } code :=
      acquired_of_insert { codeHash } used named same (congrArg (· + 1) (refsAt_of_lookup found).symm)
        (same entry found)
    exact ⟨_, by simp only [found], took⟩
  | none =>
    have took : Acquired db.codes (db.codes.insert (codeHash, 0, 0) ⟨code, 1⟩) { codeHash } code :=
      acquired_of_insert { codeHash } used named same (congrArg (· + 1) (refsAt_of_none found).symm) rfl
    exact ⟨_, by simp only [found], took⟩

/-! ### `setcode` -/

theorem runs_add_runs_le (key : CodeKey)
    {accountMetadata : AList fun _ : AccountName => AccountMetadata} {old : AccountMetadata}
    (different : other ≠ account) (found : accountMetadata.lookup account = some old)
    (otherFound : accountMetadata.lookup other = some otherMetadata) :
    runs key otherMetadata + runs key old ≤ codeUsers accountMetadata key := by
  have erased := rowSum_erase (fun _ metadata => runs key metadata) accountMetadata account
  have rest := rowAt_le_rowSum (fun _ metadata => runs key metadata) (accountMetadata.erase account)
    other
  rw [rowAt_of_lookup _ ((lookup_erase_ne different).trans otherFound)] at rest
  rw [rowAt_of_lookup _ found] at erased
  rw [codeUsers]
  omega

section Exchange

variable {old new : AccountMetadata} {code : Bytes} {released acquired : AList fun _ : CodeKey => CodeObject}

section

variable (held : CodesHeld db) (gave : Released db.codes released old)
  (took : Acquired released acquired new code)
  (found : db.accountMetadata.lookup account = some old)

include held gave took found

theorem codeBytes_of_exchange (different : other ≠ account)
    (otherFound : db.accountMetadata.lookup other = some otherMetadata) :
    codeBytes acquired otherMetadata = codeBytes db.codes otherMetadata := by
  refine codeBytes_congr fun named => ?_
  have users := runs_add_runs_le otherMetadata.codeKey different found otherFound
  have refs := gave.refs otherMetadata.codeKey
  rw [runs_self named, ← held.counted] at users
  have referenced : refsAt released otherMetadata.codeKey ≠ 0 := by omega
  rw [took.kept _ referenced, gave.code _ referenced]

theorem codesHeld_of_exchange (codesSame : db'.codes = acquired)
    (metadataSame : db'.accountMetadata = db.accountMetadata.insert account new)
    : CodesHeld db' where
  counted key := by
    have inserted := rowSum_insert (fun _ metadata => runs key metadata) db.accountMetadata account new
    have refs := gave.refs key
    have counted := held.counted key
    rw [rowAt_of_lookup _ found] at inserted
    rw [codeUsers] at counted
    rw [codesSame, metadataSame, took.refs, codeUsers]
    omega
  used := codesSame ▸ took.used

theorem debt_of_exchange :
    ({ db with
        codes := acquired
        accountMetadata := db.accountMetadata.insert account new } : ChainDb).debt fc =
      db.debt fc + (Pi.single account (codeBytes acquired new : Int) -
        Pi.single account (codeBytes db.codes old : Int)) := by
  have billed := paidBy_insert_of_agree (fun name (_ : AccountMetadata) => name)
    (fun _ metadata => codeBytes db.codes metadata) found (fun other different metadata otherFound =>
      codeBytes_of_exchange held gave took found different otherFound) new
  rw [debt_code, paidFor, paidFor, billed]
  abel

end

end Exchange

/-- A code that `setcode` stores: its hash stands neither for no code nor for another code. -/
def NewCode (fc : FcFunctions) (db : ChainDb) (code : Bytes) : Prop :=
  code ≠ [] → fc.sha256 code ≠ 0 ∧
    ∀ entry, db.codes.lookup (fc.sha256 code, 0, 0) = some entry → entry.code = code

structure Kept (fc : FcFunctions) (before after : ChainDb) : Prop where
  debt : after.debt fc = before.debt fc
  held : CodesHeld after

theorem Owing.kept (held : CodesHeld db) (balanced : Balanced fc db db') : Kept fc db db' where
  debt := balanced.debt.trans (add_zero _)
  held :=
    { counted := fun key => by rw [balanced.codes, balanced.metadata, held.counted]
      used := balanced.codes ▸ held.used }

theorem takeUp_eq {code : Bytes} (used : CodesUsed db.codes) (fresh : NewCode fc db code) :
    ∃ codes, (if code ≠ [] then db.acquireCode (if code ≠ [] then fc.sha256 code else 0) 0 0 code
        else db) = { db with codes } ∧
      Acquired db.codes codes { codeHash := if code ≠ [] then fc.sha256 code else 0 } code ∧
      codeBytes codes { codeHash := if code ≠ [] then fc.sha256 code else 0 } =
        code.length * setcodeRamBytesMultiplier := by
  split_ifs with empty
  · obtain ⟨named, same⟩ := fresh empty
    obtain ⟨codes, taken, took⟩ := acquireCode_eq used named same
    exact ⟨codes, taken, took, codeBytes_eq named (took.stored named)⟩
  · obtain rfl := not_not.mp empty
    exact ⟨db.codes, rfl, .refl used rfl [], rfl⟩

theorem setcode_meets {vmtype vmversion : Nat} {code : Bytes} (quiet : context.host.Quiet)
    (same : context.host.toFcFunctions = fc) (held : CodesHeld db) (fresh : NewCode fc db code)
    (member : account ∈ refunded) :
    Meets (db.Blames fc refunded) (Kept fc db) (db.setcode context account vmtype vmversion code) := by
  unfold setcode
  refine (quiet_requireAuthorization account).next fun _ _ => ?_
  refine check_next nofun fun typed => check_next nofun fun versioned => ?_
  subst typed versioned
  refine Quiet.next (quiet_ite (quiet.validateWasm code) (quiet_ok ())) fun _ _ => ?_
  refine (quiet_get _ _).next fun old got => check_next nofun fun _ => ?_
  have found := Database.get_eq_ok.mp got
  have paid : (codeBytes db.codes old : Int) ≤ db.billed fc account :=
    (size_le_paidBy (fun name (_ : AccountMetadata) => name)
      (fun _ metadata => codeBytes db.codes metadata) found).trans (paidFor_le_billed .code account)
  have hash : context.host.sha256 code = fc.sha256 code := by rw [← same]
  rw [hash]
  refine (releaseCode_meets held.used).bind ?_
  rintro ⟨oldSize, _⟩ ⟨sized, released, rfl, gave⟩
  dsimp only at sized
  subst sized
  -- what was stored under the new hash before the release is what is stored after it
  have stillFresh : NewCode fc { db with codes := released } code := by
    intro nonempty
    obtain ⟨named, stored⟩ := fresh nonempty
    refine ⟨named, fun entry kept => ?_⟩
    have referenced : refsAt released (fc.sha256 code, 0, 0) ≠ 0 := by
      rw [refsAt_of_lookup kept]
      exact (gave.used _ entry kept).ne'
    have unchanged := gave.code _ referenced
    rw [codeAt_of_lookup kept] at unchanged
    obtain ⟨before, foundBefore, equal⟩ := Option.map_eq_some_iff.mp unchanged.symm
    rw [← equal, stored before foundBefore]
  obtain ⟨acquired, taken, took, newSize⟩ := takeUp_eq gave.used stillFresh
  dsimp only
  rw [taken, ← newSize]
  refine Meets.imp (resize_meets rfl paid member) fun charged isCharged => ?_
  have owing := isCharged.owing fc
  refine ⟨?_, codesHeld_of_exchange held gave took found owing.codes owing.metadata⟩
  rw [owing.debt, debt_of_exchange held gave took found, Pi.single_sub]
  abel

/-! ### `newaccount` -/

theorem quiet_initializeAccount (manager : ResourceLimits) (account : AccountName) :
    Quiet (manager.initializeAccount account) :=
  quiet_bind (quiet_create _ _ _) fun _ => quiet_bind (quiet_create _ _ _) fun _ => quiet_ok _

theorem initializeAccount_balanced {resourceLimits : ResourceLimits}
    (ran : db.resourceLimits.initializeAccount account = .ok resourceLimits) :
    Balanced fc db { db with resourceLimits } := by
  unfold ResourceLimits.initializeAccount at ran
  obtain ⟨limits, -, ran⟩ := of_bind ran
  obtain ⟨usage, created, ran⟩ := of_bind ran
  obtain ⟨missing, rfl⟩ := Database.create_eq_ok.mp created
  obtain rfl := Except.ok.inj ran
  refine ⟨?_, rfl, rfl⟩
  rw [add_zero]
  refine congrArg (db.billed fc - ·) (funext fun other => ?_)
  rw [ramUsage, ramUsage]
  by_cases same : other = account
  · subst same
    rw [rowAt_of_lookup _ (lookup_insert db.resourceLimits.usage), rowAt_of_none _ missing]
  · unfold rowAt
    rw [lookup_insert_ne same]

theorem debt_of_newAccount (missing : db.accounts.lookup name = none)
    (missingMetadata : db.accountMetadata.lookup name = none) :
    ({ db with
        accounts := db.accounts.insert name {}
        accountMetadata := db.accountMetadata.insert name {} } : ChainDb).debt fc =
      db.debt fc + Pi.single name (overheadPerAccountRamBytes : Int) := by
  have first := debt_accounts fc db (db.accounts.insert name {})
  have second := debt_code fc { db with accounts := db.accounts.insert name {} } db.codes
    (db.accountMetadata.insert name {})
  rw [second, first, paidFor, paidFor, paidFor, paidFor, paidBy_insert_of_none _ _ missing,
    paidBy_insert_of_none _ _ missingMetadata]
  have noCode : (codeBytes db.codes {} : Int) = 0 := rfl
  rw [noCode, Pi.single_zero]
  simp only [List.length_nil, Nat.add_zero]
  abel

theorem codesHeld_of_newAccount (held : CodesHeld db)
    (missing : db.accountMetadata.lookup name = none) (codesSame : db'.codes = db.codes)
    (metadataSame : db'.accountMetadata = db.accountMetadata.insert name {}) : CodesHeld db' where
  counted key := by
    have inserted := rowSum_insert (fun _ metadata => runs key metadata) db.accountMetadata name {}
    rw [rowAt_of_none _ missing, runs_of_none rfl] at inserted
    rw [codesSame, metadataSame, held.counted, codeUsers, codeUsers]
    exact inserted.symm
  used := codesSame ▸ held.used

section

variable (same : context.host.toFcFunctions = fc) (held : CodesHeld db)

include same held

theorem createAccount_meets :
    Meets (db.Blames fc refunded) (Kept fc db)
      (db.createAccount context creator name owner active) := by
  have names : Quiet (db.checkNewName creator name) :=
    quiet_guard nofun fun _ => quiet_guard nofun fun _ => quiet_bind (quiet_get _ _) fun _ =>
      quiet_guard nofun fun _ => quiet_assert nofun
  unfold createAccount
  refine (quiet_requireAuthorization creator).next fun _ _ => ?_
  refine check_next nofun fun _ => check_next nofun fun _ => names.next fun _ _ => ?_
  refine (quiet_create _ _ _).next fun accounts created => ?_
  obtain ⟨missing, rfl⟩ := Database.create_eq_ok.mp created
  refine (quiet_create _ _ _).next fun accountMetadata createdMetadata => ?_
  obtain ⟨missingMetadata, rfl⟩ := Database.create_eq_ok.mp createdMetadata
  refine (quiet_validateAuthorityPrecondition owner).next fun _ _ => ?_
  refine (quiet_validateAuthorityPrecondition active).next fun _ _ => ?_
  refine quiet_createPermission.next fun withOwner ownerCreated => ?_
  obtain ⟨ownerOwing, -⟩ := createPermission_owing ownerCreated fc
  refine quiet_createPermission.next fun withActive activeCreated => ?_
  obtain ⟨activeOwing, -⟩ := createPermission_owing activeCreated fc
  refine (quiet_initializeAccount _ _).next fun resourceLimits initialized => ?_
  rw [same]
  refine Meets.imp (charge_meets (Int.natCast_nonneg _)) fun charged isCharged => ?_
  have created := ownerOwing.trans activeOwing rfl
  have started := created.trans (initializeAccount_balanced initialized) (add_zero _)
  have owing := started.trans (isCharged.owing fc) rfl
  refine ⟨?_, codesHeld_of_newAccount held missingMetadata owing.codes owing.metadata⟩
  rw [owing.debt, debt_of_newAccount missing missingMetadata, newAccountRamBytes,
    Authority.permissionRamBytes, Authority.permissionRamBytes, add_assoc, add_eq_left, ← Pi.single_add,
    ← Pi.single_neg, ← Pi.single_add, ← Pi.single_add, Pi.single_eq_zero_iff]
  push_cast
  ring

end

end CodexRelay.Chain.ChainDb
