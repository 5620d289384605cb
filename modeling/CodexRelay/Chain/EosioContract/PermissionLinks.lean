import CodexRelay.Chain.EosioContract.PermissionForest

/-!
Contract: links require permissions that exist.

Owns `LinksResolved` and that it holds in every run in which `linkauth` only links to existing
permissions of the account. A permission is deleted only when no link of its account requires it,
and no call renames one.
-/

namespace CodexRelay.Chain

open Library AList

namespace PermissionObject

variable {permissions permissions' : IdTable PermissionObject} {owner : AccountName}
  {name : PermissionName} {id : Nat} {row row' : PermissionObject}

def Exists (permissions : IdTable PermissionObject) (owner : AccountName) (name : PermissionName) :
    Prop :=
  ∃ id row, permissions.find id = some row ∧ row.owner = owner ∧ row.name = name

def Grows (permissions permissions' : IdTable PermissionObject) : Prop :=
  ∀ owner name, Exists permissions owner name → Exists permissions' owner name

theorem exists_of_findBy (found : (permissions.findBy byOwner (owner, name)).isSome) :
    Exists permissions owner name := by
  obtain ⟨⟨id, row⟩, located⟩ := Option.isSome_iff_exists.mp found
  obtain ⟨foundRow, key⟩ := IdTable.findBy_eq_some located
  obtain ⟨sameOwner, sameName⟩ := Prod.mk.inj key
  exact ⟨id, row, foundRow, sameOwner, sameName⟩

theorem grows_of_create (created : permissions.create byOwner row = .ok (id, permissions')) :
    Grows permissions permissions' := by
  obtain ⟨-, -, rows, -⟩ := IdTable.create_eq_ok.mp created
  rintro owner name ⟨other, existing, found, keys⟩
  refine ⟨other, existing, ?_, keys⟩
  rw [IdTable.find, rows, lookup_insert_ne (IdTable.find_lt_nextId found).ne]
  exact found

theorem grows_of_modify (found : permissions.find id = some row) (owner : row'.owner = row.owner)
    (name : row'.name = row.name) : Grows permissions (permissions.modify id row') := by
  rintro account permission ⟨other, existing, foundOther, sameOwner, sameName⟩
  by_cases same : other = id
  · subst same
    obtain rfl := Option.some.inj (found.symm.trans foundOther)
    refine ⟨other, row', ?_, owner.trans sameOwner, name.trans sameName⟩
    rw [IdTable.find, IdTable.modify_rows found, lookup_insert]
  · refine ⟨other, existing, ?_, sameOwner, sameName⟩
    rw [IdTable.find, IdTable.modify_rows found, lookup_insert_ne same]
    exact foundOther

/-- Removing a permission leaves those with another owner or name. -/
theorem Exists.remove (existed : Exists permissions owner name)
    (found : permissions.find id = some row) (other : ¬ (owner = row.owner ∧ name = row.name)) :
    Exists (permissions.remove id) owner name := by
  obtain ⟨kept, existing, foundKept, rfl, rfl⟩ := existed
  have different : kept ≠ id := by
    rintro rfl
    obtain rfl := Option.some.inj (found.symm.trans foundKept)
    exact other ⟨rfl, rfl⟩
  refine ⟨kept, existing, ?_, rfl, rfl⟩
  rw [IdTable.find, IdTable.remove, lookup_erase_ne different]
  exact foundKept

end PermissionObject

namespace ChainDb

open PermissionObject

variable {context : ApplyContext} {db db' start : ChainDb} {account code : AccountName}
  {type : ActionName} {permission requirement : PermissionName}

def LinksResolved (db : ChainDb) : Prop :=
  ∀ link requirement, db.permissionLinks.lookup link = some requirement →
    requirement = eosioAnyName ∨ Exists db.permissions link.1 requirement

/-! ### Calls -/

theorem LinksResolved.grows (resolved : LinksResolved db)
    (links : db'.permissionLinks = db.permissionLinks) (grows : Grows db.permissions db'.permissions) :
    LinksResolved db' := by
  intro link requirement found
  rw [links] at found
  exact (resolved link requirement found).imp_right (grows _ _)

theorem CreatesTwo.grows {permissions permissions' : IdTable PermissionObject} {name : AccountName}
    {owner active : Authority} (creates : CreatesTwo permissions permissions' name owner active) :
    Grows permissions permissions' := by
  obtain ⟨ownerId, withOwner, activeId, createdOwner, createdActive⟩ := creates
  intro owner name existed
  exact grows_of_create createdActive owner name (grows_of_create createdOwner owner name existed)

theorem updateauth_linksResolved {parent : PermissionName} {auth : Authority}
    (resolved : LinksResolved db)
    (ran : db.updateauth context account permission parent auth = .ok db') : LinksResolved db' := by
  obtain ⟨links, ⟨id, row, found, modified⟩ | ⟨parentId, id, -, -, created⟩⟩ := updateauth_eq_ok ran
  · exact resolved.grows links (modified ▸ grows_of_modify found rfl rfl)
  · exact resolved.grows links (grows_of_create created)

theorem deleteauth_linksResolved (resolved : LinksResolved db)
    (ran : db.deleteauth context account permission = .ok db') : LinksResolved db' := by
  obtain ⟨links, -, unlinked, id, row, found, rfl, rfl, -, removed⟩ := deleteauth_eq_ok ran
  intro link requirement stored
  rw [links] at stored
  rw [removed]
  refine (resolved link requirement stored).imp_right fun existed => existed.remove found ?_
  exact unlinked ⟨link, requirement⟩ (mem_lookup_iff.mp stored)

/-- A link is stored, and the permission that it requires exists. -/
theorem linkauth_eq_ok (ran : db.linkauth context account code type requirement = .ok db') :
    db'.permissions = db.permissions ∧
      db'.permissionLinks = db.permissionLinks.insert (account, code, type) requirement ∧
      (requirement = eosioAnyName ∨ db.linkTargetExists context account requirement) := by
  unfold linkauth at ran
  rw [captureAndRethrow_eq_ok] at ran
  unfold createLink at ran
  obtain ⟨_, -, ran⟩ := of_bind ran
  obtain ⟨_, -, ran⟩ := of_bind ran
  obtain ⟨_, -, ran⟩ := of_bind ran
  obtain ⟨_, -, ran⟩ := of_bind ran
  obtain ⟨_, target, ran⟩ := of_bind ran
  refine ⟨?_, ?_, eosAssert_eq_ok.mp target⟩
  all_goals
    dsimp only at ran
    cases existing : db.permissionLinks.lookup (account, code, type) with
    | some requiredPermission =>
      rw [existing] at ran
      obtain ⟨_, -, ran⟩ := of_bind ran
      obtain rfl := Except.ok.inj ran
      rfl
    | none =>
      rw [existing] at ran
      first | exact (addRamUsage_frame ran).1 | exact (addRamUsage_frame ran).2

theorem linkauth_linksResolved (feature : context.control.onlyLinkToExistingPermission = true)
    (resolved : LinksResolved db)
    (ran : db.linkauth context account code type requirement = .ok db') : LinksResolved db' := by
  obtain ⟨permissions, links, target⟩ := linkauth_eq_ok ran
  intro link required found
  rw [links] at found
  rw [permissions]
  by_cases same : link = (account, code, type)
  · subst same
    rw [lookup_insert] at found
    obtain rfl := Option.some.inj found
    refine target.imp_right fun exist => exists_of_findBy ?_
    rwa [linkTargetExists, if_pos feature] at exist
  · rw [lookup_insert_ne same] at found
    exact resolved link required found

theorem unlinkauth_linksResolved (resolved : LinksResolved db)
    (ran : db.unlinkauth context account code type = .ok db') : LinksResolved db' := by
  unfold unlinkauth at ran
  obtain ⟨_, -, ran⟩ := of_bind ran
  obtain ⟨_, -, ran⟩ := of_bind ran
  obtain ⟨charged, ranCharge, ran⟩ := of_bind ran
  obtain rfl := Except.ok.inj ran
  obtain ⟨permissions, links⟩ := addRamUsage_frame ranCharge
  intro link required found
  dsimp only at found ⊢
  rw [links] at found
  rw [permissions]
  by_cases same : link = (account, code, type)
  · subst same
    rw [lookup_erase] at found
    cases found
  · rw [lookup_erase_ne same] at found
    exact resolved link required found

/-! ### Runs -/

inductive LinkStep : ChainDb → ChainDb → Prop where
  | newaccount {db db' : ChainDb} (context : ApplyContext) (creator name : AccountName)
      (owner active : Authority) (ran : db.newaccount context creator name owner active = .ok db') :
      LinkStep db db'
  | updateauth {db db' : ChainDb} (context : ApplyContext) (account : AccountName)
      (permission parent : PermissionName) (auth : Authority)
      (ran : db.updateauth context account permission parent auth = .ok db') : LinkStep db db'
  | deleteauth {db db' : ChainDb} (context : ApplyContext) (account : AccountName)
      (permission : PermissionName) (ran : db.deleteauth context account permission = .ok db') :
      LinkStep db db'
  | linkauth {db db' : ChainDb} (context : ApplyContext) (account code : AccountName)
      (type : ActionName) (requirement : PermissionName)
      (feature : context.control.onlyLinkToExistingPermission = true)
      (ran : db.linkauth context account code type requirement = .ok db') : LinkStep db db'
  | unlinkauth {db db' : ChainDb} (context : ApplyContext) (account code : AccountName)
      (type : ActionName) (ran : db.unlinkauth context account code type = .ok db') : LinkStep db db'

theorem LinkStep.linksResolved (taken : LinkStep db db') (resolved : LinksResolved db) :
    LinksResolved db' := by
  cases taken with
  | newaccount context creator name owner active ran =>
    obtain ⟨-, creates, links⟩ := newaccount_eq_ok ran
    exact resolved.grows links creates.grows
  | updateauth context account permission parent auth ran => exact updateauth_linksResolved resolved ran
  | deleteauth context account permission ran => exact deleteauth_linksResolved resolved ran
  | linkauth context account code type requirement feature ran =>
    exact linkauth_linksResolved feature resolved ran
  | unlinkauth context account code type ran => exact unlinkauth_linksResolved resolved ran

/-- From tables without links, no run with undo sessions ends with a dangling link. -/
theorem linksResolved_of_run {visited : List (ChainDb × List ChainDb)} {saved : List ChainDb}
    (unlinked : start.permissionLinks = ∅)
    (run : Run (SessionStep LinkStep) (start, []) visited (db, saved)) : LinksResolved db := by
  obtain ⟨earlier, reached⟩ := SessionStep.reached run db (List.mem_cons_self ..)
  clear run
  induction reached with
  | refl =>
    intro link requirement found
    rw [unlinked] at found
    cases found
  | snoc _ taken ih => exact taken.linksResolved ih

/-- The action of bob that links all actions of the system account to its active permission. -/
def bobContext : ApplyContext :=
  { systemContext with act := ⟨systemAccountName, 0, [⟨bob, activeName⟩], []⟩ }

def withLink : ChainDb :=
  (withBob.linkauth bobContext bob systemAccountName 0 activeName).toOption.getD genesisDb

theorem linkauth_withLink :
    withBob.linkauth bobContext bob systemAccountName 0 activeName = .ok withLink := by
  have accepted : (withBob.linkauth bobContext bob systemAccountName 0 activeName).toOption.isSome := by
    decide +kernel
  unfold withLink
  cases ran : withBob.linkauth bobContext bob systemAccountName 0 activeName with
  | error thrown =>
    rw [ran] at accepted
    cases accepted
  | ok linked => rfl

theorem linksResolved_of_first_link :
    withLink.permissionLinks.lookup (bob, systemAccountName, 0) = some activeName ∧
      LinksResolved withLink := by
  have account : LinkStep withSystem withBob :=
    .newaccount systemContext systemAccountName bob soleKey soleKey newaccount_withBob
  have link : LinkStep withBob withLink :=
    .linkauth bobContext bob systemAccountName 0 activeName rfl linkauth_withLink
  exact ⟨by decide +kernel, linksResolved_of_run rfl (.snoc (.snoc .refl (.work account)) (.work link))⟩

end ChainDb

end CodexRelay.Chain
