import CodexRelay.Chain.ForkDatabase.Model

/-!
Contract: the fork database is a tree above its root, and what its operations do
to that tree.

Owns:
- `Tree`, the invariant of the database: every block is linked to the root;
- one lemma for each operation, which says when it succeeds, which blocks the
  index has after it and which flags and which head;
- `branch`, the way from a block to the root, and how it changes.

Results about the index are stated by membership, since its order by LIB and
number does not depend on how the entries are stored.
-/

namespace CodexRelay.Chain

open Library List

variable {second other top : BlockState} {nodes : List BlockState}

/-! ### The index -/

namespace ForkIndex

variable {index : ForkIndex} {entry : ForkEntry} {id : BlockId}

theorem eq_of_id {other : ForkEntry} (member : entry ∈ index.entries)
    (otherMem : other ∈ index.entries) (same : entry.block.id = other.block.id) : entry = other :=
  inj_on_of_nodup_map index.unique member otherMem same

theorem find_eq_some : index.find id = some entry ↔ entry ∈ index.entries ∧ entry.block.id = id := by
  unfold find
  constructor
  · intro found
    exact ⟨mem_of_find?_eq_some found, by simpa using find?_some found⟩
  · rintro ⟨member, rfl⟩
    cases found : index.entries.find? (·.block.id = entry.block.id) with
    | none =>
      have absent := find?_eq_none.mp found entry member
      simp at absent
    | some other =>
      have same : other.block.id = entry.block.id := by simpa using find?_some found
      rw [eq_of_id (mem_of_find?_eq_some found) member same]

theorem find_eq_none : index.find id = none ↔ ∀ entry ∈ index.entries, entry.block.id ≠ id := by
  unfold find
  simp [find?_eq_none]

theorem insert_eq_some {block : BlockState} {inserted : ForkIndex}
    (ran : index.insert block = some inserted) :
    index.find block.id = none ∧
      ∀ entry, entry ∈ inserted.entries ↔ entry = ⟨block, false⟩ ∨ entry ∈ index.entries := by
  unfold insert at ran
  split at ran
  case isTrue => cases ran
  case isFalse fresh =>
    obtain rfl := Option.some.inj ran
    refine ⟨find_eq_none.mpr fun entry member same => fresh ?_, fun entry => mem_cons⟩
    exact same ▸ mem_map_of_mem member

theorem mem_erase {ids : List BlockId} :
    entry ∈ (index.erase ids).entries ↔ entry ∈ index.entries ∧ entry.block.id ∉ ids := by
  simp [erase]

theorem mem_setValidated :
    entry ∈ (index.setValidated id).entries ↔
      ∃ before ∈ index.entries, before.block = entry.block ∧
        entry.validated = (before.validated || decide (entry.block.id = id)) := by
  unfold setValidated
  simp only [mem_map]
  constructor
  · rintro ⟨before, member, rfl⟩
    refine ⟨before, member, ?_⟩
    split_ifs with same <;> simp [same]
  · rintro ⟨before, member, same, flag⟩
    refine ⟨before, member, ?_⟩
    rw [← same] at flag
    by_cases own : before.block.id = id
    · simp only [own, decide_true, Bool.or_true] at flag
      rw [if_pos own]
      exact ForkEntry.ext same flag.symm
    · simp only [own, decide_false, Bool.or_false] at flag
      rw [if_neg own]
      exact ForkEntry.ext same flag.symm

end ForkIndex

/-! ### Order -/

theorem firstPreferred_asymm {first : BlockState} (preferred : firstPreferred first second) :
    ¬ firstPreferred second first := by
  unfold firstPreferred at *
  omega

theorem not_firstPreferred_trans {first third : BlockState}
    (notPreferred : ¬ firstPreferred first second) (next : ¬ firstPreferred second third) :
    ¬ firstPreferred first third := by
  unfold firstPreferred at *
  omega

namespace ForkEntry

theorem precedes_asymm {first second : ForkEntry} (before : first.precedes second) :
    ¬ second.precedes first := by
  obtain ⟨firstBlock, firstFlag⟩ := first
  obtain ⟨secondBlock, secondFlag⟩ := second
  unfold precedes firstPreferred at *
  cases firstFlag <;> cases secondFlag <;> grind

theorem not_precedes_trans {first second third : ForkEntry} (notBefore : ¬ first.precedes second)
    (next : ¬ second.precedes third) : ¬ first.precedes third := by
  obtain ⟨firstBlock, firstFlag⟩ := first
  obtain ⟨secondBlock, secondFlag⟩ := second
  obtain ⟨thirdBlock, thirdFlag⟩ := third
  unfold precedes firstPreferred at *
  cases firstFlag <;> cases secondFlag <;> cases thirdFlag <;> grind

theorem id_eq_of_not_precedes {first second : ForkEntry} (notBefore : ¬ first.precedes second)
    (notAfter : ¬ second.precedes first) : first.block.id = second.block.id := by
  obtain ⟨firstBlock, firstFlag⟩ := first
  obtain ⟨secondBlock, secondFlag⟩ := second
  unfold precedes firstPreferred at *
  cases firstFlag <;> cases secondFlag <;> grind

end ForkEntry

namespace ForkIndex

variable {index : ForkIndex} {first : ForkEntry}

theorem begin_mem (found : index.begin = some first) : first ∈ index.entries := firstBy_mem found

theorem not_precedes_begin (found : index.begin = some first) :
    ∀ entry ∈ index.entries, ¬ entry.precedes first :=
  firstBy_not_precedes ForkEntry.precedes_asymm ForkEntry.not_precedes_trans found

theorem begin_isSome {entry : ForkEntry} (member : entry ∈ index.entries) :
    ∃ first, index.begin = some first := by
  cases found : index.begin with
  | none =>
    rw [begin, firstBy_eq_none] at found
    simp [found] at member
  | some first => exact ⟨first, rfl⟩

/-- A validated block in the index makes the first one validated, and then none
that is validated is preferred to the first. -/
theorem begin_validated (found : index.begin = some first) {entry : ForkEntry}
    (member : entry ∈ index.entries) (validated : entry.validated = true) :
    first.validated = true ∧ ¬ firstPreferred entry.block first.block := by
  have notBefore := not_precedes_begin found entry member
  unfold ForkEntry.precedes at notBefore
  cases flag : first.validated with
  | false => exact absurd (.inl ⟨validated, flag⟩) notBefore
  | true =>
    refine ⟨rfl, fun preferred => notBefore (.inr ⟨?_, .inl preferred⟩)⟩
    rw [validated, flag]

end ForkIndex

/-! ### The tree -/

namespace ForkDatabase

variable {db : ForkDatabase} {block : BlockState} {id : BlockId}

theorem getBlock_eq_some :
    db.getBlock id = some block ↔ block.id = id ∧ ∃ entry ∈ db.index.entries, entry.block = block := by
  unfold getBlock
  rw [Option.map_eq_some_iff]
  constructor
  · rintro ⟨entry, found, rfl⟩
    obtain ⟨member, same⟩ := ForkIndex.find_eq_some.mp found
    exact ⟨same, entry, member, rfl⟩
  · rintro ⟨same, entry, member, rfl⟩
    exact ⟨entry, ForkIndex.find_eq_some.mpr ⟨member, same⟩, rfl⟩

theorem getBlock_eq_none :
    db.getBlock id = none ↔ ∀ entry ∈ db.index.entries, entry.block.id ≠ id := by
  unfold getBlock
  rw [Option.map_eq_none_iff, ForkIndex.find_eq_none]

theorem getBlock_of_mem {entry : ForkEntry} (member : entry ∈ db.index.entries) :
    db.getBlock entry.block.id = some entry.block :=
  getBlock_eq_some.mpr ⟨rfl, entry, member, rfl⟩

theorem keyed (db : ForkDatabase) : blockLinkage.Keyed db.getBlock :=
  fun _ _ found => (getBlock_eq_some.mp found).1

def Has (db : ForkDatabase) (block : BlockState) : Prop :=
  block = db.root ∨ db.getBlock block.id = some block

/-- Every block is above the root and linked to it. -/
structure Tree (db : ForkDatabase) : Prop where
  linked : ∀ entry ∈ db.index.entries,
    entry.block.previous = db.root.id ∨ db.getBlock entry.block.previous ≠ none
  rootBelow : ∀ entry ∈ db.index.entries, db.root.blockNum < entry.block.blockNum

namespace Tree

section

variable (tree : db.Tree)

include tree

theorem getBlock_root : db.getBlock db.root.id = none := by
  rw [getBlock_eq_none]
  intro entry member same
  have below := tree.rootBelow entry member
  rw [← entry.block.idNum, same, db.root.idNum] at below
  exact lt_irrefl _ below

theorem rootBelow_of_getBlock (found : db.getBlock id = some block) :
    db.root.blockNum < block.blockNum := by
  obtain ⟨-, entry, member, rfl⟩ := getBlock_eq_some.mp found
  exact tree.rootBelow entry member

theorem getBlockHeader_of_has (has : db.Has block) : db.getBlockHeader block.id = some block := by
  unfold getBlockHeader
  rcases has with rfl | found
  · rw [if_pos rfl]
  · rw [if_neg, found]
    intro same
    rw [← same, tree.getBlock_root] at found
    cases found

theorem has_unique (has : db.Has block) (otherHas : db.Has other) (same : block.id = other.id) :
    block = other := by
  have found := tree.getBlockHeader_of_has has
  rw [same, tree.getBlockHeader_of_has otherHas] at found
  exact (Option.some_inj.mp found).symm

theorem fetchLinked_of_has (has : db.Has block) : db.fetchLinked block.id = .ok block := by
  unfold fetchLinked
  rw [tree.getBlockHeader_of_has has]

theorem exists_previous (found : db.getBlock id = some block) :
    ∃ parent, parent.id = block.previous ∧ db.Has parent := by
  obtain ⟨-, entry, member, rfl⟩ := getBlock_eq_some.mp found
  rcases tree.linked entry member with toRoot | inside
  · exact ⟨db.root, toRoot.symm, .inl rfl⟩
  · obtain ⟨parent, parentFound⟩ := Option.ne_none_iff_exists'.mp inside
    have same := (getBlock_eq_some.mp parentFound).1
    exact ⟨parent, same, .inr (same ▸ parentFound)⟩

theorem branch_path (has : db.Has block) :
    blockLinkage.Path db.getBlock block.id (db.branch block.id) db.root.id := by
  obtain ⟨top, path, missing⟩ := Linkage.ancestry_path db.keyed block.id
  change blockLinkage.Path db.getBlock block.id (db.branch block.id) top at path
  suffices atRoot : top = db.root.id from atRoot ▸ path
  generalize db.branch block.id = nodes at path
  -- Either the walk is over at once, or the previous block has one as well.
  induction nodes generalizing block with
  | nil =>
    cases path
    rcases has with rfl | found
    · rfl
    · rw [found] at missing
      cases missing
  | cons node older ih =>
    cases path with
    | cons found rest =>
      obtain ⟨parent, same, parentHas⟩ := tree.exists_previous found
      refine ih parentHas ?_
      rw [same]
      exact rest

theorem branch_eq_of_path (path : blockLinkage.Path db.getBlock id nodes db.root.id) :
    db.branch id = nodes :=
  path.ancestry_eq_of_missing db.keyed tree.getBlock_root

theorem branch_of_path (has : db.Has block)
    (path : blockLinkage.Path db.getBlock id nodes block.id) :
    db.branch id = nodes ++ db.branch block.id :=
  tree.branch_eq_of_path (path.trans (tree.branch_path has))

theorem branch_root : db.branch db.root.id = [] := tree.branch_eq_of_path (.nil _)

end

end Tree

theorem mem_branch_getBlock (member : block ∈ db.branch id) : db.getBlock block.id = some block := by
  obtain ⟨_, path, -⟩ := Linkage.ancestry_path db.keyed id
  exact path.found db.keyed block member

/-! ### Two branches -/

theorem num_of_previous {parent : BlockState} (same : parent.id = block.previous) :
    parent.blockNum + 1 = block.blockNum := by
  rw [← block.previousNum, ← same, parent.idNum]

theorem path_cons {parent : BlockState} {top : BlockId} (found : db.getBlock block.id = some block)
    (same : parent.id = block.previous) (path : blockLinkage.Path db.getBlock parent.id nodes top) :
    blockLinkage.Path db.getBlock block.id (block :: nodes) top := by
  rw [same] at path
  exact .cons found path

/-- The first block of a path starts it; without one the path is at its end. -/
theorem path_headD (path : blockLinkage.Path db.getBlock id nodes top.id) :
    (nodes.headD top).id = id := by
  cases path with
  | nil => rfl
  | cons found _ => exact (getBlock_eq_some.mp found).1

theorem has_headD (topHas : db.Has top) (path : blockLinkage.Path db.getBlock id nodes top.id) :
    db.Has (nodes.headD top) := by
  have same := path_headD path
  cases path with
  | nil => exact topHas
  | @cons _ _ node _ found _ =>
    change node.id = id at same
    exact .inr (same ▸ found)

theorem path_num_eq (path : blockLinkage.Path db.getBlock block.id nodes top.id) :
    block.blockNum = top.blockNum + nodes.length := by
  have count := path.generation_eq db.keyed
  rw [← block.idNum, ← top.idNum]
  exact count

theorem path_num_le {top : BlockId} (path : blockLinkage.Path db.getBlock block.id nodes top)
    (member : other ∈ nodes) : other.blockNum ≤ block.blockNum := by
  have le := path.generation_le db.keyed member
  rw [← block.idNum, ← other.idNum]
  exact le

theorem lt_path_num (path : blockLinkage.Path db.getBlock id nodes top.id)
    (member : other ∈ nodes) : top.blockNum < other.blockNum := by
  have lt := path.lt_generation db.keyed member
  rw [← top.idNum, ← other.idNum]
  exact lt

section

variable (tree : db.Tree)

include tree

theorem Tree.path_eq_nil_iff (has : db.Has block) (topHas : db.Has top)
    (path : blockLinkage.Path db.getBlock block.id nodes top.id) : nodes = [] ↔ block = top := by
  constructor
  · rintro rfl
    exact tree.has_unique has topHas (Linkage.Path.nil_iff.mp path)
  · rintro rfl
    have count := path_num_eq path
    exact eq_nil_of_length_eq_zero (by omega)

theorem Tree.walkDown_spec {target : Nat} (fuel : Nat) (has : db.Has block)
    (aboveRoot : db.root.blockNum ≤ target) (enough : block.blockNum ≤ target + fuel) :
    ∃ nodes reached, db.walkDown target fuel block = .ok (nodes, reached) ∧
      blockLinkage.Path db.getBlock block.id nodes reached.id ∧ db.Has reached ∧
        reached.blockNum = min target block.blockNum := by
  induction fuel generalizing block with
  | zero => exact ⟨[], block, rfl, .nil _, has, by omega⟩
  | succ fuel ih =>
    unfold walkDown
    split_ifs with above
    case neg => exact ⟨[], block, rfl, .nil _, has, by omega⟩
    case pos =>
      have found : db.getBlock block.id = some block := by
        rcases has with rfl | found
        · omega
        · exact found
      obtain ⟨parent, same, parentHas⟩ := tree.exists_previous found
      have number := num_of_previous same
      obtain ⟨nodes, reached, walked, path, reachedHas, reachedNum⟩ := ih parentHas (by omega)
      rw [← same, tree.fetchLinked_of_has parentHas]
      refine ⟨block :: nodes, reached, ?_, path_cons found same path, reachedHas, by omega⟩
      simp [bind, Except.bind, walked, pure, Except.pure]

theorem Tree.walkToFork_spec (fuel : Nat) {first : BlockState}
    (firstFound : db.getBlock first.id = some first)
    (secondFound : db.getBlock second.id = some second) (level : first.blockNum = second.blockNum)
    (distinct : first.id ≠ second.id) (enough : first.blockNum ≤ db.root.blockNum + fuel) :
    ∃ firstNodes secondNodes common, db.walkToFork fuel first second =
        .ok (firstNodes, secondNodes) ∧
      blockLinkage.Path db.getBlock first.id firstNodes common.id ∧
      blockLinkage.Path db.getBlock second.id secondNodes common.id ∧
      db.Has common ∧ secondNodes ≠ [] ∧ ∀ block ∈ firstNodes, block ∉ secondNodes := by
  induction fuel generalizing first second with
  | zero =>
    have := tree.rootBelow_of_getBlock firstFound
    omega
  | succ fuel ih =>
    obtain ⟨firstPrev, firstSame, firstHas⟩ := tree.exists_previous firstFound
    obtain ⟨secondPrev, secondSame, secondHas⟩ := tree.exists_previous secondFound
    have firstNum := num_of_previous firstSame
    have secondNum := num_of_previous secondSame
    unfold walkToFork
    split_ifs with apart
    case neg =>
      have joined : first.previous = second.previous := not_not.mp apart
      refine ⟨[first], [second], firstPrev, rfl, path_cons firstFound firstSame (.nil _),
        path_cons secondFound (firstSame.trans joined) (.nil _), firstHas, by simp, ?_⟩
      intro block member member'
      rw [mem_singleton.mp member] at member'
      exact distinct (congrArg BlockState.id (mem_singleton.mp member'))
    case pos =>
      -- If one of the two were built on the root, so would be the other.
      have different : firstPrev.id ≠ secondPrev.id := by
        rw [firstSame, secondSame]
        exact apart
      have inside : db.getBlock firstPrev.id = some firstPrev ∧
          db.getBlock secondPrev.id = some secondPrev := by
        rcases firstHas with rfl | firstInside <;> rcases secondHas with rfl | secondInside
        · exact absurd rfl different
        · have := tree.rootBelow_of_getBlock secondInside
          omega
        · have := tree.rootBelow_of_getBlock firstInside
          omega
        · exact ⟨firstInside, secondInside⟩
      obtain ⟨firstNodes, secondNodes, common, walked, firstPath, secondPath, has, -, disjoint⟩ :=
        ih inside.1 inside.2 (by omega) different (by omega)
      rw [← firstSame, ← secondSame, inside.1, inside.2]
      refine ⟨first :: firstNodes, second :: secondNodes, common, ?_,
        path_cons firstFound firstSame firstPath, path_cons secondFound secondSame secondPath,
        has, by simp, ?_⟩
      · simp [bind, Except.bind, walked, pure, Except.pure]
      · intro block member member'
        rcases mem_cons.mp member with rfl | older
        · rcases mem_cons.mp member' with rfl | older'
          · exact distinct rfl
          · have := path_num_le secondPath older'
            omega
        · rcases mem_cons.mp member' with rfl | older'
          · have := path_num_le firstPath older
            omega
          · exact disjoint block older older'

/-- The two branches meet at a common block and pass different ones. The second is empty exactly
when the first block was built on the second one. -/
theorem Tree.fetchBranchFrom_spec {first : BlockState} (firstHas : db.Has first)
    (secondHas : db.Has second) :
    ∃ firstBranch secondBranch common,
      db.fetchBranchFrom first.id second.id = .ok (firstBranch, secondBranch) ∧
      blockLinkage.Path db.getBlock first.id firstBranch common.id ∧
      blockLinkage.Path db.getBlock second.id secondBranch common.id ∧
      db.Has common ∧
      (secondBranch = [] ↔ ∃ nodes, blockLinkage.Path db.getBlock first.id nodes second.id) ∧
      ∀ block ∈ firstBranch, block ∉ secondBranch := by
  have rootLe : ∀ {block : BlockState}, db.Has block → db.root.blockNum ≤ block.blockNum := by
    rintro block (rfl | found)
    · exact le_rfl
    · exact (tree.rootBelow_of_getBlock found).le
  obtain ⟨firstDown, firstTop, firstWalk, firstPath, firstTopHas, firstTopNum⟩ :=
    tree.walkDown_spec first.blockNum firstHas (rootLe secondHas) (by omega)
  obtain ⟨secondDown, secondTop, secondWalk, secondPath, secondTopHas, secondTopNum⟩ :=
    tree.walkDown_spec second.blockNum secondHas (rootLe firstTopHas) (by omega)
  have meets : (∃ nodes, blockLinkage.Path db.getBlock first.id nodes second.id) →
      secondDown = [] ∧ firstTop.id = secondTop.id := by
    rintro ⟨nodes, path⟩
    have count := path_num_eq path
    have firstCount := path_num_eq firstPath
    have secondCount := path_num_eq secondPath
    have none : secondDown = [] := eq_nil_of_length_eq_zero (by omega)
    rw [none, Linkage.Path.nil_iff] at secondPath
    have sameTop := (path.unique firstPath (by omega)).2
    exact ⟨none, sameTop.symm.trans secondPath⟩
  -- Only the higher of the two blocks has a way down to the number of the other.
  have downDisjoint : ∀ block ∈ firstDown, block ∉ secondDown := by
    intro block member member'
    have above := lt_path_num firstPath member
    have above' := lt_path_num secondPath member'
    have below := path_num_le firstPath member
    have below' := path_num_le secondPath member'
    omega
  unfold fetchBranchFrom
  rw [tree.fetchLinked_of_has firstHas, tree.fetchLinked_of_has secondHas]
  simp only [bind, Except.bind, firstWalk, secondWalk]
  split_ifs with joined
  case pos =>
    refine ⟨firstDown, secondDown, firstTop, rfl, firstPath, joined ▸ secondPath, firstTopHas,
      ⟨?_, fun reaches => (meets reaches).1⟩, downDisjoint⟩
    rintro rfl
    rw [Linkage.Path.nil_iff] at secondPath
    rw [joined, ← secondPath] at firstPath
    exact ⟨firstDown, firstPath⟩
  case neg =>
    -- Both are at one number above the root, since there is only one root.
    have found : db.getBlock firstTop.id = some firstTop ∧
        db.getBlock secondTop.id = some secondTop := by
      have level : firstTop.blockNum = secondTop.blockNum := by omega
      rcases firstTopHas with rfl | firstInside <;> rcases secondTopHas with rfl | secondInside
      · exact absurd rfl joined
      · have := tree.rootBelow_of_getBlock secondInside
        omega
      · have := tree.rootBelow_of_getBlock firstInside
        omega
      · exact ⟨firstInside, secondInside⟩
    obtain ⟨firstRest, secondRest, common, forked, firstOn, secondOn, has, nonempty, disjoint⟩ :=
      tree.walkToFork_spec firstTop.blockNum found.1 found.2 (by omega) joined (by omega)
    rw [forked]
    refine ⟨firstDown ++ firstRest, secondDown ++ secondRest, common, rfl,
      firstPath.trans firstOn, secondPath.trans secondOn, has, ⟨?_, ?_⟩, ?_⟩
    · intro empty
      exact absurd (append_eq_nil_iff.mp empty).2 nonempty
    · intro reaches
      exact absurd (meets reaches).2 joined
    · intro block member member'
      rcases mem_append.mp member with down | rest
      · rcases mem_append.mp member' with down' | rest'
        · exact downDisjoint block down down'
        · have above := lt_path_num firstPath down
          have below := path_num_le secondOn rest'
          omega
      · rcases mem_append.mp member' with down' | rest'
        · have above := lt_path_num secondPath down'
          have below := path_num_le firstOn rest
          omega
        · exact disjoint block rest rest'

end

end ForkDatabase

end CodexRelay.Chain
