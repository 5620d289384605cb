import CodexRelay.Chain.EosioContract.Model
import CodexRelay.Library.Run

/-!
Contract: the permissions of an account form a tree.

Owns:
- `Rooted` and `Ancestor`, the abstract view of the stored parents;
- that the calls of genesis and of every block, `newaccount`, `updateauth` and `deleteauth` keep
  the forest;
- that `satisfies` terminates and decides the order of the tree.

A parent is never checked for cycles. There are none because a permission is created after its
parent, which a later call can neither change nor remove.
-/

namespace CodexRelay.Chain

open Library AList IdTable

variable {name : AccountName} {owner active : Authority}

/-! ### Parents -/

namespace PermissionObject

variable {permissions permissions' : IdTable PermissionObject} {id otherId parent : Nat}
  {permission other : PermissionObject}

/-- Following the parents from this permission ends at a permission without a parent. -/
inductive Rooted (permissions : IdTable PermissionObject) : Nat → Prop where
  | root {id : Nat} {permission : PermissionObject} (found : permissions.find id = some permission)
      (noParent : permission.parent = 0) : Rooted permissions id
  | child {id : Nat} {permission : PermissionObject} (found : permissions.find id = some permission)
      (hasParent : permission.parent ≠ 0) (rooted : Rooted permissions permission.parent) :
      Rooted permissions id

def IsParent (permissions : IdTable PermissionObject) (parent id : Nat) : Prop :=
  parent ≠ 0 ∧ ∃ permission, permissions.find id = some permission ∧ permission.parent = parent

def Ancestor (permissions : IdTable PermissionObject) : Nat → Nat → Prop :=
  Relation.TransGen (IsParent permissions)

/-- What the calls maintain: parents have the same owner and smaller ids. The id 0 is reserved
for a permission that belongs to nobody. -/
structure Forest (permissions : IdTable PermissionObject) : Prop where
  reserved : ∃ dummy, permissions.find 0 = some dummy ∧ dummy.parent = 0 ∧ dummy.owner = 0
  owned : ∀ id permission, permissions.find id = some permission → id ≠ 0 → permission.owner ≠ 0
  parent : ∀ id permission, permissions.find id = some permission → permission.parent ≠ 0 →
    permission.parent < id ∧
      ∃ parent, permissions.find permission.parent = some parent ∧ parent.owner = permission.owner

theorem Forest.rooted (forest : Forest permissions)
    (found : permissions.find id = some permission) : Rooted permissions id := by
  induction id using Nat.strong_induction_on generalizing permission with
  | _ id ih =>
    by_cases noParent : permission.parent = 0
    · exact .root found noParent
    · obtain ⟨smaller, parent, foundParent, -⟩ := forest.parent id permission found noParent
      exact .child found noParent (ih _ smaller foundParent)

theorem ancestor_iff (found : permissions.find otherId = some other) :
    Ancestor permissions id otherId ↔
      other.parent ≠ 0 ∧ (id = other.parent ∨ Ancestor permissions id other.parent) := by
  constructor
  · intro ancestor
    cases ancestor with
    | single isParent =>
      obtain ⟨hasParent, permission, foundPermission, rfl⟩ := isParent
      obtain rfl := Option.some.inj (found.symm.trans foundPermission)
      exact ⟨hasParent, .inl rfl⟩
    | tail before isParent =>
      obtain ⟨hasParent, permission, foundPermission, rfl⟩ := isParent
      obtain rfl := Option.some.inj (found.symm.trans foundPermission)
      exact ⟨hasParent, .inr before⟩
  · rintro ⟨hasParent, rfl | ancestor⟩
    · exact .single ⟨hasParent, other, found, rfl⟩
    · exact .tail ancestor ⟨hasParent, other, found, rfl⟩

/-- The loop of `satisfies` looks for the id among the ancestors; ids that get smaller bound it. -/
theorem Forest.satisfiesLoop_eq (forest : Forest permissions) (real : id ≠ 0) {fuel : Nat}
    (found : permissions.find parent = some permission) (enough : parent < fuel) :
    ∃ answer, satisfiesLoop permissions id fuel parent = some answer ∧
      (answer = true ↔ Ancestor permissions id parent) := by
  induction fuel generalizing parent permission with
  | zero => exact absurd enough (Nat.not_lt_zero _)
  | succ fuel ih =>
    rw [satisfiesLoop, found, ancestor_iff found]
    dsimp only
    by_cases isParent : id = permission.parent
    · rw [if_pos isParent]
      exact ⟨true, rfl, iff_of_true rfl ⟨isParent ▸ real, .inl isParent⟩⟩
    rw [if_neg isParent]
    by_cases noParent : permission.parent = 0
    · rw [if_pos noParent]
      exact ⟨false, rfl, iff_of_false Bool.false_ne_true fun ⟨hasParent, _⟩ => hasParent noParent⟩
    rw [if_neg noParent]
    obtain ⟨smaller, grandparent, foundGrandparent, -⟩ := forest.parent parent permission found noParent
    obtain ⟨answer, answered, correct⟩ := ih foundGrandparent (by omega)
    refine ⟨answer, answered, correct.trans ?_⟩
    simp [noParent, isParent]

/-- `satisfies` answers whether the permission is the other one or an ancestor of it. -/
theorem Forest.satisfies_eq (forest : Forest permissions)
    (found : permissions.find id = some permission)
    (foundOther : permissions.find otherId = some other) :
    ∃ answer, (∀ fuel, permissions.nextId ≤ fuel →
        satisfies permissions fuel id permission otherId other = some answer) ∧
      (answer = true ↔ permission.owner = other.owner ∧
        (id = otherId ∨ Ancestor permissions id otherId)) := by
  unfold satisfies
  by_cases owners : permission.owner = other.owner
  case neg =>
    refine ⟨false, fun fuel _ => if_pos owners, ?_⟩
    simp [owners]
  simp only [owners, ne_eq, not_true_eq_false, if_false, true_and]
  by_cases same : id = otherId
  · exact ⟨true, fun fuel _ => if_pos (.inl same), by simp [same]⟩
  -- the reserved permission is the only one of its owner
  have real : id ≠ 0 := by
    rintro rfl
    obtain ⟨dummy, foundDummy, -, nobody⟩ := forest.reserved
    obtain rfl := Option.some.inj (found.symm.trans foundDummy)
    exact forest.owned otherId other foundOther (fun zero => same zero.symm) (owners.symm.trans nobody)
  rw [ancestor_iff foundOther]
  by_cases isParent : id = other.parent
  · exact ⟨true, fun fuel _ => if_pos (.inr isParent),
      iff_of_true rfl (.inr ⟨isParent ▸ real, .inl isParent⟩)⟩
  have continues : ∃ next, permissions.find other.parent = some next ∧
      (Ancestor permissions id other.parent → other.parent ≠ 0) := by
    by_cases noParent : other.parent = 0
    · obtain ⟨dummy, foundDummy, dummyParent, -⟩ := forest.reserved
      rw [noParent]
      exact ⟨dummy, foundDummy, fun ancestor => absurd dummyParent ((ancestor_iff foundDummy).mp ancestor).1⟩
    · obtain ⟨-, next, foundNext, -⟩ := forest.parent otherId other foundOther noParent
      exact ⟨next, foundNext, fun _ => noParent⟩
  obtain ⟨next, foundNext, hasParent⟩ := continues
  have below := find_lt_nextId foundNext
  classical
  refine ⟨decide (Ancestor permissions id other.parent), fun fuel enough => ?_, ?_⟩
  · obtain ⟨answer, answered, correct⟩ := forest.satisfiesLoop_eq real foundNext (by omega : _ < fuel)
    rw [if_neg (by simp [same, isParent]), answered, Option.some.injEq, Bool.eq_iff_iff, correct,
      decide_eq_true_iff]
  · simp only [decide_eq_true_iff, same, isParent, false_or]
    exact ⟨fun ancestor => ⟨hasParent ancestor, ancestor⟩, fun ⟨_, ancestor⟩ => ancestor⟩

/-! ### Creating, changing and removing permissions -/

section

variable (forest : Forest permissions)

include forest

/-- A permission can be created under a permission of its owner. -/
theorem Forest.create (created : permissions.create byOwner permission = .ok (id, permissions'))
    (owned : permission.owner ≠ 0)
    (under : permission.parent ≠ 0 → ∃ parent, permissions.find permission.parent = some parent ∧
      parent.owner = permission.owner) :
    Forest permissions' ∧ permissions'.find id = some permission ∧ id ≠ 0 := by
  obtain ⟨-, rfl, rows, -⟩ := IdTable.create_eq_ok.mp created
  have fresh := permissions.find_nextId
  have find_eq : ∀ other, other ≠ permissions.nextId →
      permissions'.find other = permissions.find other := by
    intro other different
    rw [IdTable.find, rows, lookup_insert_ne different]
    rfl
  have find_new : permissions'.find permissions.nextId = some permission := by
    rw [IdTable.find, rows, lookup_insert]
  have kept : ∀ other row, permissions.find other = some row → permissions'.find other = some row := by
    intro other row found
    rw [find_eq other fun equal => by rw [equal, fresh] at found; cases found]
    exact found
  obtain ⟨dummy, foundDummy, dummyParent, nobody⟩ := forest.reserved
  have positive : permissions.nextId ≠ 0 :=
    Nat.ne_of_gt (Nat.lt_of_le_of_lt (Nat.zero_le _) (find_lt_nextId foundDummy))
  refine ⟨⟨⟨dummy, kept 0 dummy foundDummy, dummyParent, nobody⟩, ?_, ?_⟩, find_new, positive⟩
  · intro other row found real
    by_cases new : other = permissions.nextId
    · subst new
      obtain rfl := Option.some.inj (find_new.symm.trans found)
      exact owned
    · rw [find_eq other new] at found
      exact forest.owned other row found real
  · intro other row found hasParent
    by_cases new : other = permissions.nextId
    · subst new
      obtain rfl := Option.some.inj (find_new.symm.trans found)
      obtain ⟨parent, foundParent, sameOwner⟩ := under hasParent
      exact ⟨find_lt_nextId foundParent, parent, kept _ parent foundParent, sameOwner⟩
    · rw [find_eq other new] at found
      obtain ⟨smaller, parent, foundParent, sameOwner⟩ := forest.parent other row found hasParent
      exact ⟨smaller, parent, kept _ parent foundParent, sameOwner⟩

theorem Forest.of_agree
    (kept : ∀ id row, permissions.find id = some row →
      ∃ row', permissions'.find id = some row' ∧ row'.parent = row.parent ∧ row'.owner = row.owner)
    (old : ∀ id row', permissions'.find id = some row' →
      ∃ row, permissions.find id = some row ∧ row'.parent = row.parent ∧ row'.owner = row.owner) :
    Forest permissions' := by
  refine ⟨?_, ?_, ?_⟩
  · obtain ⟨dummy, foundDummy, dummyParent, nobody⟩ := forest.reserved
    obtain ⟨dummy', found, parent, owner⟩ := kept 0 dummy foundDummy
    exact ⟨dummy', found, parent.trans dummyParent, owner.trans nobody⟩
  · intro id row' found real
    obtain ⟨row, foundOld, -, owner⟩ := old id row' found
    rw [owner]
    exact forest.owned id row foundOld real
  · intro id row' found hasParent
    obtain ⟨row, foundOld, parent, owner⟩ := old id row' found
    rw [parent] at hasParent ⊢
    obtain ⟨smaller, above, foundAbove, sameOwner⟩ := forest.parent id row foundOld hasParent
    obtain ⟨above', foundAbove', -, owner'⟩ := kept row.parent above foundAbove
    exact ⟨smaller, above', foundAbove', by rw [owner', owner, sameOwner]⟩

/-- Changing the authority of a permission does not touch the forest. -/
theorem Forest.modify (found : permissions.find id = some permission) (auth : Authority) :
    Forest (permissions.modify id { permission with auth }) := by
  have find_eq : ∀ other, (permissions.modify id { permission with auth }).find other =
      if other = id then some { permission with auth } else permissions.find other := by
    intro other
    rw [IdTable.find, modify_rows found]
    split_ifs with same
    · rw [same, lookup_insert]
    · rw [lookup_insert_ne same]
      rfl
  refine forest.of_agree ?_ ?_
  · intro other row foundRow
    rw [find_eq]
    split_ifs with same
    · subst same
      obtain rfl := Option.some.inj (found.symm.trans foundRow)
      exact ⟨_, rfl, rfl, rfl⟩
    · exact ⟨row, foundRow, rfl, rfl⟩
  · intro other row' foundRow
    rw [find_eq] at foundRow
    split_ifs at foundRow with same
    · subst same
      obtain rfl := Option.some.inj foundRow
      exact ⟨permission, found, rfl, rfl⟩
    · exact ⟨row', foundRow, rfl, rfl⟩

theorem Forest.remove (real : id ≠ 0)
    (childless : ∀ child ∈ permissions.rows.entries, child.2.parent ≠ id) :
    Forest (permissions.remove id) := by
  have kept : ∀ other row, other ≠ id → permissions.find other = some row →
      (permissions.remove id).find other = some row := by
    intro other row different found
    exact (lookup_erase_ne different).trans found
  have old : ∀ other row, (permissions.remove id).find other = some row →
      permissions.find other = some row := by
    intro other row found
    by_cases same : other = id
    · subst same
      exact absurd ((lookup_erase other permissions.rows).symm.trans found) (by simp)
    · exact (lookup_erase_ne same).symm.trans found
  refine ⟨?_, ?_, ?_⟩
  · obtain ⟨dummy, foundDummy, dummyParent, nobody⟩ := forest.reserved
    exact ⟨dummy, kept 0 dummy real.symm foundDummy, dummyParent, nobody⟩
  · exact fun other row found => forest.owned other row (old other row found)
  · intro other row found hasParent
    have foundOld := old other row found
    obtain ⟨smaller, above, foundAbove, sameOwner⟩ := forest.parent other row foundOld hasParent
    have notRemoved : row.parent ≠ id := childless ⟨other, row⟩ (mem_lookup_iff.mp foundOld)
    exact ⟨smaller, above, kept row.parent above notRemoved foundAbove, sameOwner⟩

end

end PermissionObject

/-! ### The actions -/

namespace ChainDb

open PermissionObject

variable {context : ApplyContext} {db db' : ChainDb} {account : AccountName}
  {permission parent : PermissionName} {auth : Authority}

theorem addRamUsage_frame {ramDelta : Int} (ran : db.addRamUsage account ramDelta = .ok db') :
    db'.permissions = db.permissions ∧ db'.permissionLinks = db.permissionLinks := by
  unfold addRamUsage at ran
  obtain ⟨resourceLimits, -, ran⟩ := of_bind ran
  obtain rfl := Except.ok.inj ran
  exact ⟨rfl, rfl⟩

theorem createPermission_eq_ok {parentId id : Nat}
    (ran : db.createPermission account permission parentId auth = .ok (id, db')) :
    db.permissions.create byOwner ⟨parentId, account, permission, auth⟩ = .ok (id, db'.permissions) ∧
      db'.permissionLinks = db.permissionLinks := by
  unfold createPermission at ran
  obtain ⟨⟨id', permissions⟩, created, ran⟩ := of_bind ran
  obtain ⟨rfl, rfl⟩ := Prod.mk.inj (Except.ok.inj ran)
  exact ⟨created, rfl⟩

theorem findPermission_eq_ok {level : PermissionLevel} {found : Option (Nat × PermissionObject)}
    (ran : db.findPermission level = .ok found) :
    level.actor ≠ 0 ∧ found = db.permissions.findBy byOwner (level.actor, level.permission) := by
  unfold findPermission at ran
  obtain ⟨_, named, ran⟩ := of_bind ran
  exact ⟨(eosAssert_eq_ok.mp named).1, (Except.ok.inj ran).symm⟩

theorem getPermission_eq_ok {level : PermissionLevel} {id : Nat} {row : PermissionObject}
    (ran : db.getPermission level = .ok (id, row)) :
    level.actor ≠ 0 ∧ db.permissions.find id = some row ∧ row.owner = level.actor ∧
      row.name = level.permission := by
  unfold getPermission at ran
  obtain ⟨found, searched, ran⟩ := of_bind ran
  obtain ⟨named, rfl⟩ := findPermission_eq_ok searched
  cases located : db.permissions.findBy byOwner (level.actor, level.permission) with
  | none =>
    rw [located] at ran
    cases ran
  | some result =>
    rw [located] at ran
    obtain rfl := Except.ok.inj ran
    obtain ⟨foundRow, key⟩ := findBy_eq_some located
    exact ⟨named, foundRow, Prod.mk.inj key⟩

/-! ### What the calls do to permissions and links -/

def CreatesTwo (permissions permissions' : IdTable PermissionObject) (name : AccountName)
    (owner active : Authority) : Prop :=
  ∃ ownerId withOwner activeId,
    permissions.create byOwner ⟨0, name, ownerName, owner⟩ = .ok (ownerId, withOwner) ∧
      withOwner.create byOwner ⟨ownerId, name, activeName, active⟩ = .ok (activeId, permissions')

theorem createTwo_eq_ok {withOwner withActive : ChainDb} {ownerId activeId : Nat}
    (createdOwner : db.createPermission name ownerName 0 owner = .ok (ownerId, withOwner))
    (createdActive : withOwner.createPermission name activeName ownerId active =
      .ok (activeId, withActive)) :
    CreatesTwo db.permissions withActive.permissions name owner active ∧
      withActive.permissionLinks = db.permissionLinks := by
  obtain ⟨first, firstLinks⟩ := createPermission_eq_ok createdOwner
  obtain ⟨second, secondLinks⟩ := createPermission_eq_ok createdActive
  exact ⟨⟨ownerId, withOwner.permissions, activeId, first, second⟩, secondLinks.trans firstLinks⟩

theorem newaccount_eq_ok {creator : AccountName}
    (ran : db.newaccount context creator name owner active = .ok db') :
    name ≠ 0 ∧ CreatesTwo db.permissions db'.permissions name owner active ∧
      db'.permissionLinks = db.permissionLinks := by
  unfold newaccount at ran
  rw [captureAndRethrow_eq_ok] at ran
  unfold createAccount at ran
  obtain ⟨_, -, ran⟩ := of_bind ran
  obtain ⟨_, -, ran⟩ := of_bind ran
  obtain ⟨_, -, ran⟩ := of_bind ran
  obtain ⟨_, checked, ran⟩ := of_bind ran
  obtain ⟨accounts, -, ran⟩ := of_bind ran
  obtain ⟨metadata, -, ran⟩ := of_bind ran
  obtain ⟨_, -, ran⟩ := of_bind ran
  obtain ⟨_, -, ran⟩ := of_bind ran
  obtain ⟨⟨ownerId, withOwner⟩, createdOwner, ran⟩ := of_bind ran
  obtain ⟨⟨activeId, withActive⟩, createdActive, ran⟩ := of_bind ran
  obtain ⟨resourceLimits, -, ran⟩ := of_bind ran
  obtain ⟨samePermissions, sameLinks⟩ := addRamUsage_frame ran
  rw [samePermissions, sameLinks]
  have named : name ≠ 0 := by
    unfold checkNewName at checked
    obtain ⟨_, named, -⟩ := of_bind checked
    exact eosAssert_eq_ok.mp named
  have created := createTwo_eq_ok createdOwner createdActive
  exact ⟨named, created⟩

theorem createNativeAccount_eq_ok {host : Host} {abi : Bytes}
    (ran : db.createNativeAccount host name owner active abi = .ok db') :
    db' = db ∨ CreatesTwo db.permissions db'.permissions name owner active := by
  unfold createNativeAccount at ran
  split_ifs at ran with exist
  · exact .inl (Except.ok.inj ran).symm
  · obtain ⟨accounts, -, ran⟩ := of_bind ran
    obtain ⟨metadata, -, ran⟩ := of_bind ran
    obtain ⟨⟨ownerId, withOwner⟩, createdOwner, ran⟩ := of_bind ran
    obtain ⟨⟨activeId, withActive⟩, createdActive, ran⟩ := of_bind ran
    obtain ⟨resourceLimits, -, ran⟩ := of_bind ran
    rw [(addRamUsage_frame ran).1]
    have created := createTwo_eq_ok createdOwner createdActive
    exact .inr created.1

/-- A permission changes its authority, or is created below one of the same account. -/
theorem updateauth_eq_ok (ran : db.updateauth context account permission parent auth = .ok db') :
    db'.permissionLinks = db.permissionLinks ∧
      ((∃ id row, db.permissions.find id = some row ∧
          db'.permissions = db.permissions.modify id { row with auth }) ∨
        ∃ parentId id, account ≠ 0 ∧
          (parentId ≠ 0 → ∃ row, db.permissions.find parentId = some row ∧ row.owner = account) ∧
          db.permissions.create byOwner ⟨parentId, account, permission, auth⟩ =
            .ok (id, db'.permissions)) := by
  unfold updateauth at ran
  obtain ⟨_, -, ran⟩ := of_bind ran
  obtain ⟨_, -, ran⟩ := of_bind ran
  obtain ⟨_, -, ran⟩ := of_bind ran
  obtain ⟨_, -, ran⟩ := of_bind ran
  obtain ⟨_, -, ran⟩ := of_bind ran
  obtain ⟨_, -, ran⟩ := of_bind ran
  obtain ⟨_, -, ran⟩ := of_bind ran
  obtain ⟨existing, searched, ran⟩ := of_bind ran
  obtain ⟨parentId, parentFound, ran⟩ := of_bind ran
  obtain ⟨named, located⟩ := findPermission_eq_ok searched
  cases existing with
  | some existing =>
    obtain ⟨id, row⟩ := existing
    obtain ⟨_, -, ran⟩ := of_bind ran
    obtain ⟨samePermissions, sameLinks⟩ := addRamUsage_frame ran
    rw [samePermissions, sameLinks]
    exact ⟨rfl, .inl ⟨id, row, (findBy_eq_some located.symm).1, rfl⟩⟩
  | none =>
    obtain ⟨⟨id, withNew⟩, created, ran⟩ := of_bind ran
    obtain ⟨samePermissions, sameLinks⟩ := addRamUsage_frame ran
    rw [samePermissions, sameLinks]
    obtain ⟨created, links⟩ := createPermission_eq_ok created
    refine ⟨links, .inr ⟨parentId, id, named, fun hasParent => ?_, created⟩⟩
    unfold ChainDb.parentId at parentFound
    split_ifs at parentFound with isOwner
    · obtain ⟨⟨id', row⟩, got, parentFound⟩ := of_bind parentFound
      obtain rfl := Except.ok.inj parentFound
      obtain ⟨-, found, sameOwner, -⟩ := getPermission_eq_ok got
      exact ⟨row, found, sameOwner⟩
    · exact absurd (Except.ok.inj parentFound).symm hasParent

theorem deleteauth_eq_ok (ran : db.deleteauth context account permission = .ok db') :
    db'.permissionLinks = db.permissionLinks ∧ account ≠ 0 ∧
      (∀ link ∈ db.permissionLinks.entries, ¬ (link.1.1 = account ∧ link.2 = permission)) ∧
      ∃ id row, db.permissions.find id = some row ∧ row.owner = account ∧ row.name = permission ∧
        (∀ child ∈ db.permissions.rows.entries, child.2.parent ≠ id) ∧
        db'.permissions = db.permissions.remove id := by
  unfold deleteauth at ran
  obtain ⟨_, -, ran⟩ := of_bind ran
  obtain ⟨_, -, ran⟩ := of_bind ran
  obtain ⟨_, -, ran⟩ := of_bind ran
  obtain ⟨_, unlinked, ran⟩ := of_bind ran
  obtain ⟨⟨id, row⟩, got, ran⟩ := of_bind ran
  obtain ⟨removed, ranRemove, ran⟩ := of_bind ran
  obtain ⟨samePermissions, sameLinks⟩ := addRamUsage_frame ran
  unfold removePermission at ranRemove
  obtain ⟨_, childless, ranRemove⟩ := of_bind ranRemove
  obtain rfl := Except.ok.inj ranRemove
  obtain ⟨named, found, owner, name⟩ := getPermission_eq_ok got
  exact ⟨sameLinks, named, eosAssert_eq_ok.mp unlinked, id, row, found, owner, name,
    eosAssert_eq_ok.mp childless, samePermissions⟩

/-! ### The forest -/

theorem CreatesTwo.forest {permissions permissions' : IdTable PermissionObject}
    (creates : CreatesTwo permissions permissions' name owner active) (named : name ≠ 0)
    (forest : Forest permissions) : Forest permissions' := by
  obtain ⟨ownerId, withOwner, activeId, createdOwner, createdActive⟩ := creates
  obtain ⟨withOwnerForest, foundOwner, -⟩ :=
    forest.create createdOwner named (fun hasParent => absurd rfl hasParent)
  exact (withOwnerForest.create createdActive named fun _ => ⟨_, foundOwner, rfl⟩).1

section

variable (forest : Forest db.permissions)

include forest

theorem createProducersPermissions_forest {majority minority : PermissionName}
    (ran : db.createProducersPermissions majority minority auth = .ok db') :
    Forest db'.permissions := by
  unfold createProducersPermissions at ran
  obtain ⟨⟨activeId, active⟩, got, ran⟩ := of_bind ran
  obtain ⟨⟨majorityId, withMajority⟩, createdMajority, ran⟩ := of_bind ran
  obtain ⟨⟨minorityId, withMinority⟩, createdMinority, ran⟩ := of_bind ran
  obtain rfl := Except.ok.inj ran
  obtain ⟨named, foundActive, owner, -⟩ := getPermission_eq_ok got
  obtain ⟨withMajorityForest, foundMajority, -⟩ := forest.create
    (createPermission_eq_ok createdMajority).1 named fun _ => ⟨active, foundActive, owner⟩
  exact (withMajorityForest.create (createPermission_eq_ok createdMinority).1 named
    fun _ => ⟨_, foundMajority, rfl⟩).1

theorem updatePermission_forest {level : PermissionLevel}
    (ran : db.updatePermission level auth = .ok db') : Forest db'.permissions := by
  obtain ⟨⟨id, row⟩, got, ran⟩ := of_bind ran
  obtain rfl := Except.ok.inj ran
  obtain ⟨-, found, -⟩ := getPermission_eq_ok got
  split_ifs
  · exact forest.modify found auth
  · exact forest

theorem updateauth_forest (ran : db.updateauth context account permission parent auth = .ok db') :
    Forest db'.permissions := by
  obtain ⟨-, ⟨id, row, found, modified⟩ | ⟨parentId, id, named, sameOwner, created⟩⟩ :=
    updateauth_eq_ok ran
  · rw [modified]
    exact forest.modify found auth
  · exact (forest.create created named sameOwner).1

theorem deleteauth_forest (ran : db.deleteauth context account permission = .ok db')
    : Forest db'.permissions := by
  obtain ⟨-, named, -, id, row, found, owner, -, childless, removed⟩ := deleteauth_eq_ok ran
  rw [removed]
  refine forest.remove ?_ childless
  rintro rfl
  obtain ⟨dummy, foundDummy, -, nobody⟩ := forest.reserved
  obtain rfl := Option.some.inj (found.symm.trans foundDummy)
  exact named (owner.symm.trans nobody)

end

/-! ### Runs -/

/-- The calls that write permissions: those of genesis and of every block, and the actions that were
accepted. -/
inductive PermissionStep : ChainDb → ChainDb → Prop where
  | createNativeAccount {db db' : ChainDb} (host : Host) (name : AccountName)
      (owner active : Authority) (abi : Bytes) (named : name ≠ 0)
      (ran : db.createNativeAccount host name owner active abi = .ok db') : PermissionStep db db'
  | createProducersPermissions {db db' : ChainDb} (majority minority : PermissionName)
      (auth : Authority) (ran : db.createProducersPermissions majority minority auth = .ok db') :
      PermissionStep db db'
  | updatePermission {db db' : ChainDb} (level : PermissionLevel) (auth : Authority)
      (ran : db.updatePermission level auth = .ok db') : PermissionStep db db'
  | newaccount {db db' : ChainDb} (context : ApplyContext) (creator name : AccountName)
      (owner active : Authority) (ran : db.newaccount context creator name owner active = .ok db') :
      PermissionStep db db'
  | updateauth {db db' : ChainDb} (context : ApplyContext) (account : AccountName)
      (permission parent : PermissionName) (auth : Authority)
      (ran : db.updateauth context account permission parent auth = .ok db') : PermissionStep db db'
  | deleteauth {db db' : ChainDb} (context : ApplyContext) (account : AccountName)
      (permission : PermissionName) (ran : db.deleteauth context account permission = .ok db') :
      PermissionStep db db'

theorem initializePermissions_forest : Forest initializePermissions := by
  have only : ∀ id row, initializePermissions.find id = some row →
      id = 0 ∧ row = ⟨0, 0, 0, {}⟩ := by
    intro id row found
    obtain ⟨rfl, same⟩ := Sigma.mk.inj (List.mem_singleton.mp (mem_lookup_iff.mp found))
    exact ⟨rfl, eq_of_heq same⟩
  refine ⟨⟨⟨0, 0, 0, {}⟩, rfl, rfl, rfl⟩, ?_, ?_⟩
  · exact fun id row found real => absurd (only id row found).1 real
  · intro id row found hasParent
    obtain ⟨-, rfl⟩ := only id row found
    exact absurd rfl hasParent

theorem PermissionStep.forest (taken : PermissionStep db db') (forest : Forest db.permissions) :
    Forest db'.permissions := by
  cases taken with
  | createNativeAccount host name owner active abi named ran =>
    obtain rfl | creates := createNativeAccount_eq_ok ran
    · exact forest
    · exact creates.forest named forest
  | createProducersPermissions majority minority auth ran =>
    exact createProducersPermissions_forest forest ran
  | updatePermission level auth ran => exact updatePermission_forest forest ran
  | newaccount context creator name owner active ran =>
    obtain ⟨named, creates, -⟩ := newaccount_eq_ok ran
    exact creates.forest named forest
  | updateauth context account permission parent auth ran => exact updateauth_forest forest ran
  | deleteauth context account permission ran => exact deleteauth_forest forest ran

/-- Parents are permissions of the same owner, every permission has a root, and `satisfies`
decides the order of the tree. -/
structure PermissionTrees (permissions : IdTable PermissionObject) : Prop where
  parent : ∀ id permission, permissions.find id = some permission → permission.parent = 0 ∨
    ∃ parent, permissions.find permission.parent = some parent ∧ parent.owner = permission.owner
  rooted : ∀ id permission, permissions.find id = some permission → Rooted permissions id
  satisfies : ∀ id permission otherId other, permissions.find id = some permission →
    permissions.find otherId = some other →
      ∃ answer, (∀ fuel, permissions.nextId ≤ fuel →
          satisfies permissions fuel id permission otherId other = some answer) ∧
        (answer = true ↔ permission.owner = other.owner ∧
          (id = otherId ∨ Ancestor permissions id otherId))

theorem permissionTrees_of_run {start : ChainDb} {visited : List (ChainDb × List ChainDb)}
    {saved : List ChainDb} (initial : start.permissions = initializePermissions)
    (run : Run (SessionStep PermissionStep) (start, []) visited (db, saved)) :
    PermissionTrees db.permissions := by
  obtain ⟨earlier, reached⟩ := SessionStep.reached run db (List.mem_cons_self ..)
  have forest : Forest db.permissions := by
    clear run
    induction reached with
    | refl =>
      rw [initial]
      exact initializePermissions_forest
    | snoc _ taken ih => exact taken.forest ih
  refine ⟨?_, fun id permission => forest.rooted, fun id permission otherId other =>
    forest.satisfies_eq⟩
  intro id permission found
  by_cases noParent : permission.parent = 0
  · exact .inl noParent
  · exact .inr (forest.parent id permission found noParent).2

def freeHost : Host where
  sha256 code := code.foldl (fun digest byte => digest * 256 + byte.toNat) 1
  validateWasm _ := .ok ()
  keyPackSize _ := 34
  packTransaction trx := List.replicate (40 + trx.actions.length) 0
  transactionId trx := trx.refBlockNum
  packGenerationContext _ := []
  unpackGenerationContext _ := none
  checkAuthorization _ _ _ _ := .ok ()
  checkActorList _ := .ok ()
  addNetUsage _ := .ok ()

/-- A block in the first minute, with all protocol features. -/
def freeControl : Control where
  isProducingBlock := false
  skipAuthCheck := false
  disableAllSubjectiveMitigations := false
  allowRamBillingInNotify := false
  keyBlacklist := []
  senderBypassWhiteblacklist := []
  pendingBlockTime := 60000000
  headBlockId := 0
  maxTransactionDelay := 3600
  deferredTrxExpirationWindow := 600
  basePerTransactionNetUsage := 12
  ramRestrictions := true
  replaceDeferred := true
  noDuplicateDeferredId := true
  restrictActionToSelf := true
  onlyLinkToExistingPermission := true

def systemContext : ApplyContext where
  host := freeHost
  control := freeControl
  receiver := systemAccountName
  act := ⟨systemAccountName, 0, [⟨systemAccountName, activeName⟩], []⟩
  privileged := true
  enforceWhiteblacklist := true
  trxId := 0

def soleKey : Authority where
  threshold := 1
  keys := [⟨7, 1⟩]

def genesisDb : ChainDb := initializeDatabase ⟨200000, 1048576, 28800, 28800⟩ ⟨8192, 200000, 10240⟩

def withSystem : ChainDb :=
  (genesisDb.createNativeAccount freeHost systemAccountName soleKey soleKey []).toOption.getD genesisDb

/-- The name of an account that the system account creates. -/
def bob : AccountName := stringToName ['b', 'o', 'b']

def withBob : ChainDb :=
  (withSystem.newaccount systemContext systemAccountName bob soleKey soleKey).toOption.getD genesisDb

theorem createNativeAccount_withSystem :
    genesisDb.createNativeAccount freeHost systemAccountName soleKey soleKey [] = .ok withSystem := by
  rfl

theorem newaccount_withBob :
    withSystem.newaccount systemContext systemAccountName bob soleKey soleKey = .ok withBob := by
  rfl

theorem permissionTrees_of_first_account : PermissionTrees withBob.permissions := by
  have native : PermissionStep genesisDb withSystem :=
    .createNativeAccount freeHost systemAccountName soleKey soleKey [] (by decide)
      createNativeAccount_withSystem
  have account : PermissionStep withSystem withBob :=
    .newaccount systemContext systemAccountName bob soleKey soleKey newaccount_withBob
  exact permissionTrees_of_run rfl (.snoc (.snoc .refl (.work native)) (.work account))

end ChainDb

end CodexRelay.Chain
