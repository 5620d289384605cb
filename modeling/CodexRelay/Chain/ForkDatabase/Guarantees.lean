import CodexRelay.Chain.ForkDatabase.Preference
import CodexRelay.Library.Run

/-!
Contract: what the fork database guarantees to its callers, along every run of operations.

Owns:
- `Operation`, a call of the fork database, and `Step`, a call that returns;
- that after every run of such calls the blocks form a tree on the root, the head is the
  root or a validated block, no validated block is preferred to it, and no block at all to
  `pending_head`;
- `fetch_branch_from` returns the ways down to the nearest common ancestor of any two blocks;
- `add` keeps the head exactly when the head is the first validated block of its index. The head is
  chosen by a strict comparison that ignores ids, so another block with the same LIB and number can
  be first;
- `remove` is atomic, and `advance_root` exactly when the head does not stand on a branch that it
  cuts off.

Does not own: the order in which the controller makes these calls.
-/

namespace CodexRelay.Chain

open Library List

namespace ForkDatabase

variable {db db' : ForkDatabase} {block : BlockState}

inductive Operation where
  | reset (rootBhs : BlockState)
  | add (n : BlockState) (ignoreDuplicate : Bool)
  | markValid (h : BlockState)
  | remove (id : BlockId)
  | advanceRoot (id : BlockId)
  | rollbackHeadToRoot

def Operation.run : Operation → ForkDatabaseM Unit
  | .reset rootBhs => ForkDatabase.reset rootBhs
  | .add n ignoreDuplicate => ForkDatabase.add n ignoreDuplicate
  | .markValid h => ForkDatabase.markValid h
  | .remove id => ForkDatabase.remove id
  | .advanceRoot id => ForkDatabase.advanceRoot id
  | .rollbackHeadToRoot => ForkDatabase.rollbackHeadToRoot

def Step (db db' : ForkDatabase) : Prop :=
  ∃ operation : Operation, operation.run db = .ok () db'

theorem run_of_operations {step : ForkDatabase → ForkDatabase → Prop} {start : ForkDatabase}
    {visited : List ForkDatabase} {operations : List Operation}
    (steps : ∀ operation ∈ operations, ∀ db db', operation.run db = .ok () db' → step db db')
    (run : Run step start visited db) (ran : operations.forM Operation.run db = .ok () db') :
    ∃ visited, Run step start visited db' := by
  induction operations generalizing db visited with
  | nil =>
    cases ran
    exact ⟨visited, run⟩
  | cons operation rest ih =>
    obtain ⟨_, middle, taken, ran⟩ := of_bind_ok ran
    exact ih (fun other member => steps other (.tail _ member))
      (run.snoc (steps operation (.head _) _ _ taken)) ran

/-! ### What calls that return do -/

theorem markValid_of_ok (ran : markValid block db = .ok () db') :
    db' = db ∨ ∃ stored, db.getBlock stored.id = some stored ∧ Marked db db' stored := by
  by_cases valid : db.isValid block.id = true
  · unfold markValid at ran
    rw [get_bind, if_pos valid] at ran
    exact .inl (EStateM.Result.ok.inj ran).2.symm
  cases found : db.getBlock block.id with
  | none =>
    unfold markValid at ran
    rw [get_bind, if_neg valid] at ran
    change (if db.getBlock block.id = none then _ else _ : ForkDatabaseM Unit) db = _ at ran
    rw [if_pos found] at ran
    cases ran
  | some stored =>
    have same := (getBlock_eq_some.mp found).1
    have byId : markValid stored = markValid block := by
      unfold markValid
      rw [same]
    rw [← same] at found
    obtain ⟨db'', ran', marked⟩ := markValid_spec found
    rw [byId] at ran'
    obtain ⟨-, rfl⟩ := EStateM.Result.ok.inj (ran'.symm.trans ran)
    exact .inr ⟨stored, found, marked⟩

/-- A database without validated blocks whose head is the root. -/
theorem Tree.sound_of_unvalidated (tree : db.Tree) (isRoot : db.head = db.root)
    (unvalidated : ∀ entry ∈ db.index.entries, entry.validated = false) : db.Sound where
  tree := tree
  headHas := .inl isRoot
  headValid := by
    rw [isRoot]
    exact tree.isValid_root
  best := by
    intro entry member validated
    rw [unvalidated entry member] at validated
    cases validated

theorem Sound.of_reset (rootBhs : BlockState) (ran : reset rootBhs db = .ok () db') : db'.Sound := by
  obtain ⟨-, rfl⟩ := EStateM.Result.ok.inj ran
  exact Tree.sound_of_unvalidated ⟨by simp, by simp⟩ rfl (by simp)

theorem Sound.of_rollback (sound : db.Sound) (ran : rollbackHeadToRoot db = .ok () db') :
    db'.Sound := by
  obtain ⟨-, rfl⟩ := EStateM.Result.ok.inj ran
  have cleared : ∀ entry ∈ db.index.clearValidated.entries,
      ∃ before ∈ db.index.entries, entry = ⟨before.block, false⟩ := by
    intro entry member
    obtain ⟨before, beforeMem, rfl⟩ := List.mem_map.mp member
    exact ⟨before, beforeMem, rfl⟩
  refine Tree.sound_of_unvalidated ⟨?_, ?_⟩ rfl ?_
  · intro entry member
    obtain ⟨before, beforeMem, rfl⟩ := cleared entry member
    refine (sound.tree.linked before beforeMem).imp_right fun inside => ?_
    obtain ⟨parent, found⟩ := Option.ne_none_iff_exists'.mp inside
    obtain ⟨same, parentEntry, parentMem, rfl⟩ := getBlock_eq_some.mp found
    have kept : (⟨parentEntry.block, false⟩ : ForkEntry) ∈ db.index.clearValidated.entries :=
      List.mem_map.mpr ⟨parentEntry, parentMem, rfl⟩
    refine Option.ne_none_iff_exists'.mpr ⟨parentEntry.block, ?_⟩
    exact getBlock_eq_some.mpr ⟨same, _, kept, rfl⟩
  · intro entry member
    obtain ⟨before, beforeMem, rfl⟩ := cleared entry member
    exact sound.tree.rootBelow before beforeMem
  · intro entry member
    obtain ⟨before, -, rfl⟩ := cleared entry member
    rfl

theorem Sound.step (sound : db.Sound) (step : Step db db') : db'.Sound := by
  obtain ⟨operation, ran⟩ := step
  cases operation with
  | reset rootBhs => exact Sound.of_reset rootBhs ran
  | add n ignoreDuplicate =>
    rcases add_of_ok ran with rfl | added
    · exact sound
    · exact added.sound sound
  | markValid h =>
    rcases markValid_of_ok ran with rfl | ⟨stored, found, marked⟩
    · exact sound
    · exact marked.sound sound found
  | remove id =>
    obtain ⟨safe, removed⟩ := remove_of_ok ran
    exact removed.sound sound safe
  | advanceRoot id =>
    obtain ⟨newRoot, found, -, headBelow, advanced⟩ :=
      sound.tree.advanceRoot_of_ok sound.headHas ran
    exact advanced.sound sound found headBelow
  | rollbackHeadToRoot => exact sound.of_rollback ran

/-! ### Runs -/

/-- The blocks form a tree on the root, in which numbers count the generations; the head is
the root or a validated block; and no validated block is preferred to it. -/
structure TreeInvariant (db : ForkDatabase) : Prop where
  linked : ∀ entry ∈ db.index.entries,
    (entry.block.previous = db.root.id ∧ entry.block.blockNum = db.root.blockNum + 1) ∨
      ∃ parent ∈ db.index.entries, entry.block.previous = parent.block.id ∧
        entry.block.blockNum = parent.block.blockNum + 1
  head : db.head = db.root ∨ ⟨db.head, true⟩ ∈ db.index.entries
  best : ∀ entry ∈ db.index.entries, entry.validated = true → ¬ firstPreferred entry.block db.head

theorem Sound.treeInvariant (sound : db.Sound) : db.TreeInvariant where
  linked := by
    intro entry member
    rcases sound.tree.linked entry member with toRoot | inside
    · exact .inl ⟨toRoot, (num_of_previous toRoot.symm).symm⟩
    · obtain ⟨parent, found⟩ := Option.ne_none_iff_exists'.mp inside
      obtain ⟨same, parentEntry, parentMem, rfl⟩ := getBlock_eq_some.mp found
      exact .inr ⟨parentEntry, parentMem, same.symm, (num_of_previous same).symm⟩
  head := by
    refine sound.headHas.imp_right fun found => ?_
    obtain ⟨-, entry, member, same⟩ := getBlock_eq_some.mp found
    have valid := sound.headValid
    rw [← same, isValid_of_mem member] at valid
    rwa [← same, ← valid]
  best := sound.best

theorem Sound.of_run {start last : ForkDatabase} {visited : List ForkDatabase}
    {rootBhs : BlockState} (begins : reset rootBhs db = .ok () start)
    (run : Run Step start visited last) : last.Sound := by
  induction run with
  | refl => exact Sound.of_reset rootBhs begins
  | snoc _ step ih => exact ih.step step

/-- **The tree invariant** holds after every run of calls that return, from the first
`reset` on. -/
theorem treeInvariant_of_run {start last : ForkDatabase} {visited : List ForkDatabase}
    {rootBhs : BlockState} (begins : reset rootBhs db = .ok () start)
    (run : Run Step start visited last) : last.TreeInvariant :=
  (Sound.of_run begins run).treeInvariant

def firstBlock : BlockState :=
  ⟨endianReverseU32 1 * 2 ^ 192, 0, 1, 0, by decide, by decide, Nat.one_pos⟩

def secondBlock : BlockState :=
  ⟨endianReverseU32 2 * 2 ^ 192, firstBlock.id, 2, 0, by decide, by decide, Nat.two_pos⟩

/-- The database with one block on the root, which is validated or not. -/
def withSecond (validated : Bool) : ForkDatabase where
  index := ⟨[⟨secondBlock, validated⟩], List.nodup_singleton _⟩
  root := firstBlock
  head := if validated then secondBlock else firstBlock

/-- A block is added and validated. -/
theorem run_withSecond : Run Step ⟨⟨[], List.nodup_nil⟩, firstBlock, firstBlock⟩
    [withSecond true, withSecond false] (withSecond true) :=
  .snoc (.snoc .refl ⟨.add secondBlock false, by decide +kernel⟩)
    ⟨.markValid secondBlock, by decide +kernel⟩

theorem treeInvariant_withSecond : (withSecond true).TreeInvariant := by
  have begins : reset firstBlock (withSecond true) =
      .ok () ⟨⟨[], List.nodup_nil⟩, firstBlock, firstBlock⟩ := rfl
  exact treeInvariant_of_run begins run_withSecond

/-! ### Branches -/

/-- A database whose blocks are linked to the root: following the links down, the numbers fall until
the root is reached. -/
theorem Tree.of_linked (linked : ∀ entry ∈ db.index.entries,
    entry.block.previous = db.root.id ∨ db.getBlock entry.block.previous ≠ none) : db.Tree where
  linked := linked
  rootBelow := by
    intro entry member
    induction number : entry.block.blockNum using Nat.strongRecOn generalizing entry with
    | _ _ ih =>
      rcases linked entry member with toRoot | inside
      · have := num_of_previous toRoot.symm
        omega
      · obtain ⟨parent, found⟩ := Option.ne_none_iff_exists'.mp inside
        obtain ⟨same, parentEntry, parentMember, rfl⟩ := getBlock_eq_some.mp found
        have := num_of_previous same
        have := ih _ (by omega) parentEntry parentMember rfl
        omega

/-- `fetch_branch_from` returns the ways down to the nearest common ancestor, for the root and all
blocks of the index. -/
theorem fetchBranchFrom_nearestCommon {first second : BlockState}
    (linked : ∀ entry ∈ db.index.entries,
      entry.block.previous = db.root.id ∨ db.getBlock entry.block.previous ≠ none)
    (firstHas : db.Has first) (secondHas : db.Has second) :
    ∃ firstBranch secondBranch common,
      db.fetchBranchFrom first.id second.id = .ok (firstBranch, secondBranch) ∧
      db.Has common ∧ blockLinkage.NearestCommon db.getBlock first.id second.id common.id ∧
      blockLinkage.Path db.getBlock first.id firstBranch common.id ∧
      blockLinkage.Path db.getBlock second.id secondBranch common.id ∧
      (firstBranch = [] ↔ first = common) ∧ (secondBranch = [] ↔ second = common) := by
  have tree := Tree.of_linked linked
  obtain ⟨firstBranch, secondBranch, common, fetched, firstPath, secondPath, has, -, disjoint⟩ :=
    tree.fetchBranchFrom_spec firstHas secondHas
  refine ⟨firstBranch, secondBranch, common, fetched, has, ?_, firstPath, secondPath, ?_, ?_⟩
  · exact Linkage.nearestCommon_of_disjoint db.keyed firstPath secondPath disjoint
  · exact tree.path_eq_nil_iff firstHas has firstPath
  · exact tree.path_eq_nil_iff secondHas has secondPath

/-- Another block on `firstBlock`, with a greater id. -/
def siblingBlock : BlockState :=
  ⟨endianReverseU32 2 * 2 ^ 192 + 1, firstBlock.id, 2, 0, by decide, secondBlock.previousNum,
    Nat.two_pos⟩

def thirdBlock : BlockState :=
  ⟨endianReverseU32 3 * 2 ^ 192, secondBlock.id, 3, 0, by decide, by decide, Nat.succ_pos 2⟩

def withSiblings (head : BlockState) : ForkDatabase where
  index := ⟨[⟨secondBlock, true⟩, ⟨siblingBlock, true⟩], by decide⟩
  root := firstBlock
  head := head

def withThird (head : BlockState) : ForkDatabase where
  index := ⟨[⟨thirdBlock, false⟩, ⟨secondBlock, true⟩, ⟨siblingBlock, true⟩], by decide⟩
  root := firstBlock
  head := head

/-- The ways from `thirdBlock` and `siblingBlock` meet at the root. -/
theorem fetchBranchFrom_nearestCommon_third : ∃ firstBranch secondBranch common,
    (withThird secondBlock).fetchBranchFrom thirdBlock.id siblingBlock.id =
      .ok (firstBranch, secondBranch) ∧
    (withThird secondBlock).Has common ∧
    blockLinkage.NearestCommon (withThird secondBlock).getBlock thirdBlock.id siblingBlock.id
      common.id ∧
    blockLinkage.Path (withThird secondBlock).getBlock thirdBlock.id firstBranch common.id ∧
    blockLinkage.Path (withThird secondBlock).getBlock siblingBlock.id secondBranch common.id ∧
    (firstBranch = [] ↔ thirdBlock = common) ∧ (secondBranch = [] ↔ siblingBlock = common) :=
  fetchBranchFrom_nearestCommon (by decide +kernel) (.inr (by decide +kernel))
    (.inr (by decide +kernel))

theorem getBlock_of_insert_eq_none {n : BlockState} (taken : db.index.insert n = none) :
    db.getBlock n.id ≠ none := by
  unfold ForkIndex.insert at taken
  split_ifs at taken with known
  obtain ⟨entry, member, same⟩ := mem_map.mp known
  rw [← same, getBlock_of_mem member]
  exact Option.some_ne_none _

/-- `add` keeps the head exactly when it adds nothing or the head is the first validated block. -/
theorem add_head_iff (db : ForkDatabase) (n : BlockState) (ignoreDuplicate : Bool) :
    (finalState (add n ignoreDuplicate db)).head = db.head ↔
      db.getBlockHeader n.previous = none ∨ db.getBlock n.id ≠ none ∨ db.HeadLeads := by
  by_cases unlinkable : db.getBlockHeader n.previous = none
  · have thrown : add n ignoreDuplicate db =
        .error ⟨.unlinkableBlockException, "unlinkable block"⟩ db := by
      unfold add
      rw [get_bind, if_pos unlinkable]
      rfl
    rw [thrown]
    exact ⟨fun _ => .inl unlinkable, fun _ => rfl⟩
  cases inserted : db.index.insert n with
  | none =>
    have known : db.getBlock n.id ≠ none := getBlock_of_insert_eq_none inserted
    have kept : finalState (add n ignoreDuplicate db) = db := by
      unfold add
      rw [get_bind, if_neg unlinkable, inserted]
      cases ignoreDuplicate with
      | false => rfl
      | true => rfl
    rw [kept]
    exact ⟨fun _ => .inr (.inl known), fun _ => rfl⟩
  | some index =>
    obtain ⟨db', ran, added⟩ := add_of_insert unlinkable inserted
    rw [ran]
    show db'.head = db.head ↔ _
    rw [added.head_iff]
    constructor
    · intro leads
      exact .inr (.inr leads)
    · rintro (missing | known | leads)
      · exact absurd missing unlinkable
      · exact absurd added.fresh known
      · exact leads

/-- Of two validated blocks with the same LIB and number the later one is first in the index, and
the next block that is added makes it the head. -/
theorem head_moves_after_add : ∃ visited, Run Step ⟨⟨[], nodup_nil⟩, firstBlock, firstBlock⟩ visited
        (withSiblings siblingBlock) ∧
      add thirdBlock false (withSiblings siblingBlock) = .ok () (withThird secondBlock) ∧
      (withThird secondBlock).head ≠ (withSiblings siblingBlock).head := by
  have ran : [Operation.add siblingBlock false, .markValid siblingBlock, .add secondBlock false,
      .markValid secondBlock].forM Operation.run ⟨⟨[], nodup_nil⟩, firstBlock, firstBlock⟩ =
        .ok () (withSiblings siblingBlock) := by
    decide +kernel
  obtain ⟨visited, run⟩ : ∃ visited, Run Step _ visited _ :=
    run_of_operations (fun operation _ _ _ ran => ⟨operation, ran⟩) .refl ran
  refine ⟨visited, run, ?_, ?_⟩
  · decide +kernel
  · decide +kernel

/-- `remove` erases a block and what is built on it, and nothing else. It throws exactly when the
head is among these blocks, and changes nothing then. -/
theorem remove_atomic (db : ForkDatabase) (id : BlockId) :
    (Reach db.index id db.head.id ∧ ∃ thrown, remove id db = .error thrown db) ∨
      ¬ Reach db.index id db.head.id ∧ ∃ db', remove id db = .ok () db' ∧ Removed db db' id := by
  rcases remove_cases db id with ⟨thrown, threw, reach⟩ | ⟨db', ran, safe, removed⟩
  · exact .inl ⟨reach, thrown, threw⟩
  · exact .inr ⟨safe, db', ran, removed⟩

/-- In a database that calls lead to, no block is preferred to the pending head, whether it is
validated or not. The pending head is the head, or a block that is not validated and is preferred
to it. -/
theorem pendingHead_best_of_run {start last : ForkDatabase} {visited : List ForkDatabase}
    {rootBhs : BlockState} (begins : reset rootBhs db = .ok () start)
    (run : Run Step start visited last) :
    (∀ entry ∈ last.index.entries, ¬ firstPreferred entry.block last.pendingHead) ∧
      (last.pendingHead = last.head ∨ ⟨last.pendingHead, false⟩ ∈ last.index.entries ∧
        firstPreferred last.pendingHead last.head) := by
  have sound := Sound.of_run begins run
  obtain ⟨choice, unbeaten⟩ := pendingHead_cases last
  refine ⟨fun entry member => ?_, choice⟩
  cases validated : entry.validated with
  | false => exact unbeaten entry member validated
  | true =>
    have notPreferred := sound.best entry member validated
    rcases choice with same | ⟨-, preferred⟩
    · rwa [same]
    · exact not_firstPreferred_trans notPreferred (firstPreferred_asymm preferred)

/-- Before the second block is validated, it is the pending head. -/
theorem pendingHead_best_withSecond : (withSecond false).pendingHead = secondBlock ∧
    ∀ entry ∈ (withSecond false).index.entries,
      ¬ firstPreferred entry.block (withSecond false).pendingHead := by
  have begins : reset firstBlock (withSecond true) =
      .ok () ⟨⟨[], nodup_nil⟩, firstBlock, firstBlock⟩ := rfl
  exact ⟨rfl, (pendingHead_best_of_run begins
    (.snoc .refl ⟨.add secondBlock false, by decide +kernel⟩)).1⟩

/-! ### The root -/

/-- `advance_root` moves the root and keeps what is built on it, or throws and changes nothing. -/
def AdvancesAtomically (db : ForkDatabase) (id : BlockId) : Prop :=
  (∃ newRoot db', db.getBlock id = some newRoot ∧ advanceRoot id db = .ok () db' ∧
    AdvancedRoot db db' newRoot) ∨
  ∃ thrown, advanceRoot id db = .error thrown db

/-- A removal that throws leaves no block that was not there before. -/
theorem subset_of_forM_error {ids : List BlockId} {stage : ForkDatabase} {thrown : ChainException}
    {stage' : ForkDatabase} (threw : ids.forM remove stage = .error thrown stage') :
    ∀ entry ∈ stage'.index.entries, entry ∈ stage.index.entries := by
  induction ids generalizing stage with
  | nil => cases threw
  | cons id rest ih =>
    rw [forM_cons] at threw
    rcases remove_cases stage id with ⟨thrown', threwFirst, _⟩ | ⟨next, ran, _, removed⟩
    · rw [bind_of_error threwFirst] at threw
      cases threw
      exact fun _ member => member
    · rw [bind_of_ok ran] at threw
      intro entry member
      exact ((removed.entries entry).mp (ih threw entry member)).1

/-- No removal throws when the head is in another place than on the root. -/
theorem forM_remove_of_not_reach {ids : List BlockId} {stage : ForkDatabase}
    (elsewhere : ∀ id ∈ ids, ¬ Reach stage.index id stage.head.id) :
    ∃ stage', ids.forM remove stage = .ok () stage' := by
  induction ids generalizing stage with
  | nil => exact ⟨stage, rfl⟩
  | cons id rest ih =>
    obtain ⟨next, ran, removed⟩ := remove_spec (elsewhere id mem_cons_self)
    obtain ⟨stage', ranRest⟩ := @ih next (by
      intro other member reach
      rw [removed.head] at reach
      apply elsewhere other (mem_cons_of_mem _ member)
      exact reach.mono fun entry isLeft => ((removed.entries entry).mp isLeft).1)
    refine ⟨stage', ?_⟩
    rw [forM_cons, bind_of_ok ran]
    exact ranRest

section AdvancingAtomically

variable {newRoot : BlockState}

/-- The blocks that `advance_root` removes are built on the old root. -/
theorem Tree.reach_ancestor (tree : db.Tree) {ancestor : BlockId}
    (member : ancestor ∈ (db.branch newRoot.id).map (·.previous)) :
    Reach db.index db.root.id ancestor := by
  obtain ⟨block, blockMember, rfl⟩ := mem_map.mp member
  have has : db.Has block := .inr (mem_branch_getBlock blockMember)
  have reach := reach_of_path (tree.branch_path has)
  obtain ⟨_, entry, entryMember, same⟩ := getBlock_eq_some.mp (mem_branch_getBlock blockMember)
  rw [← same] at reach ⊢
  apply reach.previous entryMember
  intro isRoot
  have below := tree.rootBelow entry entryMember
  have own := entry.block.idNum
  have rootOwn := db.root.idNum
  rw [isRoot] at own
  omega

section

variable (tree : db.Tree) (found : db.getBlock newRoot.id = some newRoot)

include tree found

/-- A validated block becomes the root when the head is built on it or not on the old root. -/
theorem Tree.advanceRoot_ok (valid : db.isValid newRoot.id = true)
    (safe : Reach db.index newRoot.id db.head.id ∨ ¬ Reach db.index db.root.id db.head.id) :
    ∃ db', advanceRoot newRoot.id db = .ok () db' ∧ AdvancedRoot db db' newRoot := by
  rcases safe with headBelow | elsewhere
  · exact tree.advanceRoot_spec found valid headBelow
  · obtain ⟨last, low⟩ := tree.ancestors found
    have initial := Cutting.init tree newRoot
    obtain ⟨stage, ran⟩ := @forM_remove_of_not_reach ((db.branch newRoot.id).map (·.previous))
      { db with index := db.index.erase [newRoot.id] } (by
        intro ancestor member reach
        apply elsewhere
        apply (tree.reach_ancestor member).trans
        exact reach.mono fun entry isLeft => (ForkIndex.mem_erase.mp isLeft).1)
    obtain ⟨cutting, _, childless, _⟩ := initial.removedAll low ran
    refine ⟨{ stage with root := newRoot }, ?_, cutting.advanced ?_⟩
    · rw [tree.advanceRoot_eq found valid, bind_of_ok ran]
      rfl
    · exact (childless db.root.id (mem_of_getLast? last)).2

/-- The removals return only when the head is built on the new root or not on the old one. -/
theorem Tree.safe_of_removed {stage : ForkDatabase}
    (ran : ((db.branch newRoot.id).map (·.previous)).forM remove
      { db with index := db.index.erase [newRoot.id] } = .ok () stage) :
    Reach db.index newRoot.id db.head.id ∨ ¬ Reach db.index db.root.id db.head.id := by
  obtain ⟨last, low⟩ := tree.ancestors found
  obtain ⟨cutting, _, childless, headKept⟩ := (Cutting.init tree newRoot).removedAll low ran
  obtain ⟨otherRoot, rootless⟩ := childless db.root.id (mem_of_getLast? last)
  by_contra unsafeHead
  obtain ⟨notBelow, onRoot⟩ := not_or.mp unsafeHead
  have onRoot := not_not.mp onRoot
  generalize isHead : db.head.id = headId at onRoot notBelow
  cases onRoot with
  | self => exact otherRoot isHead.symm
  | @child entry member _ =>
    apply notBelow
    apply cutting.reach_of_mem rootless entry
    apply headKept entry _ isHead.symm
    refine ForkIndex.mem_erase.mpr ⟨member, ?_⟩
    intro isNewRoot
    apply notBelow
    rw [mem_singleton.mp isNewRoot]
    exact .self

end

/-- `advance_root` is atomic exactly when it throws before it erases the new root, or the head is
built on the new root or not on the old one. -/
theorem advanceRoot_atomic_iff {id : BlockId} (linked : ∀ entry ∈ db.index.entries,
    entry.block.previous = db.root.id ∨ db.getBlock entry.block.previous ≠ none) :
    db.AdvancesAtomically id ↔
      db.getBlock id = none ∨ db.isValid id = false ∨ Reach db.index id db.head.id ∨
        ¬ Reach db.index db.root.id db.head.id := by
  have tree := Tree.of_linked linked
  cases isFound : db.getBlock id with
  | none =>
    refine ⟨fun _ => .inl rfl, fun _ => .inr ⟨⟨.forkDatabaseException,
      "cannot advance root to a block that does not exist in the fork database"⟩, ?_⟩⟩
    unfold advanceRoot
    rw [get_bind, isFound]
    rfl
  | some newRoot =>
    obtain rfl := (getBlock_eq_some.mp isFound).1
    cases valid : db.isValid newRoot.id with
    | false =>
      refine ⟨fun _ => .inr (.inl rfl), fun _ => .inr ⟨⟨.forkDatabaseException,
        "cannot advance root to a block that has not yet been validated"⟩, ?_⟩⟩
      unfold advanceRoot
      rw [get_bind, isFound]
      dsimp only
      rw [valid, if_pos (by decide)]
      rfl
    | true =>
      constructor
      · intro atomic
        refine .inr (.inr ?_)
        rcases atomic with ⟨_, db', _, ran, _⟩ | ⟨thrown, threw⟩
        · rw [tree.advanceRoot_eq isFound valid] at ran
          obtain ⟨⟨⟩, stage, ranAll, _⟩ := of_bind_ok ran
          exact tree.safe_of_removed isFound ranAll
        · -- the new root was erased, so the database is not the one before
          rw [tree.advanceRoot_eq isFound valid] at threw
          cases removal : ((db.branch newRoot.id).map (·.previous)).forM remove
              { db with index := db.index.erase [newRoot.id] } with
          | ok _ stage =>
            rw [bind_of_ok removal] at threw
            cases threw
          | error thrown' stage =>
            rw [bind_of_error removal] at threw
            obtain ⟨_, rfl⟩ := EStateM.Result.error.inj threw
            obtain ⟨_, entry, member, same⟩ := getBlock_eq_some.mp isFound
            have erased := subset_of_forM_error removal entry member
            exact absurd (by simp [same]) (ForkIndex.mem_erase.mp erased).2
      · rintro (missing | invalid | safe)
        · cases missing
        · cases invalid
        · obtain ⟨db', ran, advanced⟩ := tree.advanceRoot_ok isFound valid safe
          exact .inl ⟨newRoot, db', isFound, ran, advanced⟩

end AdvancingAtomically

theorem advanceRoot_atomic_second : (withSiblings secondBlock).AdvancesAtomically secondBlock.id :=
  (advanceRoot_atomic_iff (by decide +kernel)).mpr (.inr (.inr (.inl .self)))

/-- The head is a sibling of the new root. The new root is erased when the removal of the old root
throws. -/
theorem advanceRoot_loses_block : ∃ thrown,
    (∀ entry ∈ (withSiblings siblingBlock).index.entries,
      entry.block.previous = firstBlock.id ∨
        (withSiblings siblingBlock).getBlock entry.block.previous ≠ none) ∧
      advanceRoot secondBlock.id (withSiblings siblingBlock) =
        .error thrown ⟨⟨[⟨siblingBlock, true⟩], by decide⟩, firstBlock, siblingBlock⟩ := by
  refine ⟨⟨.forkDatabaseException,
    "removing the block and its descendants would remove the current head block"⟩, ?_, ?_⟩
  · decide +kernel
  · decide +kernel

end ForkDatabase

end CodexRelay.Chain
