import CodexRelay.Chain.ForkDatabase.Tree
import CodexRelay.Library.Outcome

/-!
Contract: what `add`, `mark_valid`, `remove` and `advance_root` do to the tree of
blocks.

Owns one relation between the databases before and after for each of them, the
conditions under which they succeed, and that the database stays a tree.
-/

namespace CodexRelay.Chain

open Library List ForkIndex BlockHeader

variable {nodes : List BlockState} {key : BlockId}

variable {entry : ForkEntry} {top : BlockId} {stage' : ForkDatabase}

/-! ### Descendants -/

/-- `Reach index ancestor id`: the walk from `id` over `previous` links of blocks
in the index comes by `ancestor`. -/
inductive Reach (index : ForkIndex) (ancestor : BlockId) : BlockId → Prop where
  | self : Reach index ancestor ancestor
  | child {entry : ForkEntry} (member : entry ∈ index.entries)
      (parent : Reach index ancestor entry.block.previous) : Reach index ancestor entry.block.id

namespace Reach

variable {index : ForkIndex} {ancestor id : BlockId}

theorem num_le (reach : Reach index ancestor id) : numFromId ancestor ≤ numFromId id := by
  induction reach with
  | self => exact le_rfl
  | @child entry _ _ ih =>
    have own := entry.block.idNum
    have previous := entry.block.previousNum
    omega

/-- A block other than the ancestor itself is reached over its own link. -/
theorem previous (member : entry ∈ index.entries) (reach : Reach index ancestor entry.block.id)
    (other : entry.block.id ≠ ancestor) :
    Reach index ancestor entry.block.previous := by
  generalize same : entry.block.id = id at reach
  cases reach with
  | self => exact absurd same other
  | child member' parent =>
    rw [eq_of_id member member' same]
    exact parent

theorem mono {wider : ForkIndex} (included : ∀ entry ∈ index.entries, entry ∈ wider.entries)
    (reach : Reach index ancestor id) : Reach wider ancestor id := by
  induction reach with
  | self => exact .self
  | child member _ ih => exact .child (included _ member) ih

theorem trans {middle : BlockId} (first : Reach index ancestor middle)
    (second : Reach index middle id) : Reach index ancestor id := by
  induction second with
  | self => exact first
  | child member _ ih => exact .child member ih

end Reach

namespace ForkDatabase

variable {db db' : ForkDatabase} {block : BlockState} {id : BlockId}

theorem mem_children {index : ForkIndex} {parent : BlockId} :
    id ∈ children index parent ↔
      ∃ entry ∈ index.entries, entry.block.previous = parent ∧ entry.block.id = id := by
  simp [children, and_assoc]

theorem children_nodup (index : ForkIndex) (parent : BlockId) : (children index parent).Nodup :=
  index.unique.sublist (filter_sublist.map _)

theorem reach_of_path (path : blockLinkage.Path db.getBlock id nodes top) :
    Reach db.index top id := by
  induction path with
  | nil => exact .self
  | cons found _ ih =>
    obtain ⟨rfl, entry, member, rfl⟩ := getBlock_eq_some.mp found
    exact .child member ih

theorem path_of_reach {ancestor : BlockId} (reach : Reach db.index ancestor id) :
    ∃ nodes, blockLinkage.Path db.getBlock id nodes ancestor := by
  induction reach with
  | self => exact ⟨[], .nil _⟩
  | @child entry member _ ih =>
    obtain ⟨nodes, path⟩ := ih
    exact ⟨entry.block :: nodes, .cons (getBlock_of_mem member) path⟩

/-! ### `remove` -/

/-- The loop of `remove` has visited `done` and still has `queue` to visit. No id is
visited twice, since only its parent queues it. -/
structure Removing (index : ForkIndex) (start : BlockId) (done queue : List BlockId) : Prop where
  nodup : (done ++ queue).Nodup
  reach : ∀ id ∈ done ++ queue, Reach index start id
  origin : ∀ id ∈ done ++ queue, id = start ∨
    ∃ entry ∈ index.entries, entry.block.id = id ∧ entry.block.previous ∈ done
  closed : ∀ entry ∈ index.entries, entry.block.previous ∈ done → entry.block.id ∈ done ++ queue

namespace Removing

variable {index : ForkIndex} {start current : BlockId} {done queue : List BlockId}

theorem init (index : ForkIndex) (start : BlockId) : Removing index start [] [start] where
  nodup := by simp
  reach := by simp [Reach.self]
  origin := by simp
  closed := by simp

section

variable (removing : Removing index start done (current :: queue))

include removing

theorem fresh : ∀ id ∈ children index current, id ∉ done ++ current :: queue := by
  intro id childMem known
  obtain ⟨entry, entryMem, parent, rfl⟩ := mem_children.mp childMem
  rcases removing.origin _ known with same | ⟨other, otherMem, same, visited⟩
  · have low := (removing.reach current (by simp)).num_le
    have own := entry.block.idNum
    have previous := entry.block.previousNum
    rw [parent] at previous
    rw [same] at own
    omega
  · obtain rfl := eq_of_id otherMem entryMem same
    rw [parent] at visited
    exact (nodup_append.mp removing.nodup).2.2 current visited current mem_cons_self rfl

theorem visit : Removing index start (done ++ [current]) (queue ++ children index current) := by
  have regroup : (done ++ [current]) ++ (queue ++ children index current) =
      (done ++ current :: queue) ++ children index current := by simp
  constructor
  case nodup =>
    rw [regroup, nodup_append]
    refine ⟨removing.nodup, children_nodup index current, ?_⟩
    rintro id known _ childMem rfl
    exact removing.fresh id childMem known
  case reach =>
    intro id member
    rw [regroup, mem_append] at member
    rcases member with known | childMem
    · exact removing.reach id known
    · obtain ⟨entry, entryMem, parent, rfl⟩ := mem_children.mp childMem
      exact .child entryMem (parent ▸ removing.reach current (by simp))
  case origin =>
    intro id member
    rw [regroup, mem_append] at member
    rcases member with known | childMem
    · rcases removing.origin id known with same | ⟨entry, entryMem, same, visited⟩
      · exact .inl same
      · exact .inr ⟨entry, entryMem, same, mem_append_left _ visited⟩
    · obtain ⟨entry, entryMem, parent, rfl⟩ := mem_children.mp childMem
      exact .inr ⟨entry, entryMem, rfl, by simp [parent]⟩
  case closed =>
    intro entry entryMem visited
    rw [regroup, mem_append]
    rcases mem_append.mp visited with earlier | now
    · exact .inl (removing.closed entry entryMem earlier)
    · exact .inr (mem_children.mpr ⟨entry, entryMem, mem_singleton.mp now, rfl⟩)

end

/-- There are no more ids to visit than entries in the index, and `start`. -/
theorem length_le (removing : Removing index start done queue) :
    done.length + queue.length ≤ index.entries.length + 1 := by
  have subset : done ++ queue ⊆ start :: index.entries.map (·.block.id) := by
    intro id member
    rcases removing.origin id member with rfl | ⟨entry, entryMem, rfl, -⟩
    · exact mem_cons_self
    · exact mem_cons_of_mem _ (mem_map_of_mem entryMem)
  have bound := (List.Nodup.subperm removing.nodup subset).length_le
  simpa using bound

end Removing

/-- The loop visits its queue and everything below it, and nothing else, unless it comes
to the head. -/
theorem removeQueue_cases {index : ForkIndex} {headId start : BlockId} {done queue : List BlockId}
    (removing : Removing index start done queue) {fuel : Nat}
    (count : fuel + done.length = index.entries.length + 1) :
    (∃ thrown, removeQueue index headId fuel queue = .error thrown ∧ Reach index start headId) ∨
      ∃ visited, removeQueue index headId fuel queue = .ok visited ∧ headId ∉ visited ∧
        (∀ id ∈ visited, Reach index start id) ∧ (∀ id ∈ queue, id ∈ visited) ∧
          ∀ entry ∈ index.entries, entry.block.previous ∈ done ++ visited →
            entry.block.id ∈ done ++ visited := by
  induction fuel generalizing done queue with
  | zero =>
    have bound := removing.length_le
    obtain rfl : queue = [] := eq_nil_of_length_eq_zero (by omega)
    exact .inr ⟨[], rfl, by simp, by simp, by simp, by simpa using removing.closed⟩
  | succ fuel ih =>
    cases queue with
    | nil => exact .inr ⟨[], rfl, by simp, by simp, by simp, by simpa using removing.closed⟩
    | cons current queue =>
      have currentReach := removing.reach current (by simp)
      have count' : fuel + (done ++ [current]).length = index.entries.length + 1 := by
        rw [length_append, length_singleton]
        omega
      by_cases isHead : current = headId
      · subst isHead
        have threw : ∃ thrown, removeQueue index current (fuel + 1) (current :: queue) =
            .error thrown := by
          unfold removeQueue
          simp [eosAssert, bind, Except.bind]
        obtain ⟨thrown, threw⟩ := threw
        exact .inl ⟨thrown, threw, currentReach⟩
      rcases ih removing.visit count' with
        ⟨thrown, threw, reach⟩ | ⟨visited, ran, notHead, sound, complete, closed⟩
      · refine .inl ⟨thrown, ?_, reach⟩
        unfold removeQueue
        simp [eosAssert, isHead, bind, Except.bind, threw]
      · refine .inr ⟨current :: visited, ?_, ?_, ?_, ?_, ?_⟩
        · unfold removeQueue
          simp [eosAssert, isHead, bind, Except.bind, ran, pure, Except.pure]
        · exact not_mem_cons_of_ne_of_not_mem (Ne.symm isHead) notHead
        · exact forall_mem_cons.mpr ⟨currentReach, sound⟩
        · intro id member
          rcases mem_cons.mp member with rfl | later
          · exact mem_cons_self
          · exact mem_cons_of_mem _ (complete id (mem_append_left _ later))
        · simpa using closed

/-- The database after `remove`: the block and everything built on it are gone. -/
structure Removed (db db' : ForkDatabase) (id : BlockId) : Prop where
  root : db'.root = db.root
  head : db'.head = db.head
  entries : ∀ entry, entry ∈ db'.index.entries ↔
    entry ∈ db.index.entries ∧ ¬ Reach db.index id entry.block.id

theorem remove_cases (db : ForkDatabase) (id : BlockId) :
    (∃ thrown, remove id db = .error thrown db ∧ Reach db.index id db.head.id) ∨
      ∃ db', remove id db = .ok () db' ∧ ¬ Reach db.index id db.head.id ∧ Removed db db' id := by
  rcases removeQueue_cases (Removing.init db.index id) (Nat.add_zero _) with
    ⟨thrown, threw, reach⟩ | ⟨visited, ran, notHead, sound, complete, closed⟩
  · refine .inl ⟨thrown, ?_, reach⟩
    unfold remove
    rw [get_bind, threw]
    rfl
  · have visitedIff : ∀ other, other ∈ visited ↔ Reach db.index id other := by
      intro other
      refine ⟨sound other, fun reach => ?_⟩
      induction reach with
      | self => exact complete id (by simp)
      | child member _ ih => exact closed _ member ih
    refine .inr ⟨{ db with index := db.index.erase visited }, ?_, ?_, rfl, rfl, fun entry => ?_⟩
    · unfold remove
      rw [get_bind, ran]
      rfl
    · rwa [← visitedIff]
    · rw [mem_erase, visitedIff]

theorem remove_spec (safe : ¬ Reach db.index id db.head.id) :
    ∃ db', remove id db = .ok () db' ∧ Removed db db' id := by
  rcases remove_cases db id with ⟨-, -, reach⟩ | ⟨db', ran, -, removed⟩
  · exact absurd reach safe
  · exact ⟨db', ran, removed⟩

theorem remove_of_ok (ran : remove id db = .ok () db') :
    ¬ Reach db.index id db.head.id ∧ Removed db db' id := by
  rcases remove_cases db id with ⟨thrown, threw, -⟩ | ⟨db'', ran', safe, removed⟩
  · cases threw.symm.trans ran
  · obtain ⟨-, rfl⟩ := EStateM.Result.ok.inj (ran'.symm.trans ran)
    exact ⟨safe, removed⟩

/-! ### `advance_root` -/

/-- A stage of `advance_root`: the new root has been erased, and of the blocks that
are not built on it some are gone. -/
structure Cutting (db : ForkDatabase) (newRoot : BlockState) (stage : ForkDatabase) : Prop where
  root : stage.root = db.root
  head : stage.head = db.head
  subset : ∀ entry ∈ stage.index.entries, entry ∈ db.index.entries ∧ entry.block.id ≠ newRoot.id
  kept : ∀ entry ∈ db.index.entries, entry.block.id ≠ newRoot.id →
    Reach db.index newRoot.id entry.block.id → entry ∈ stage.index.entries
  linked : ∀ entry ∈ stage.index.entries, entry.block.previous = db.root.id ∨
    entry.block.previous = newRoot.id ∨
      ∃ parent ∈ stage.index.entries, parent.block.id = entry.block.previous

namespace Cutting

variable {stage : ForkDatabase} {newRoot : BlockState}

theorem init (tree : db.Tree) (newRoot : BlockState) :
    Cutting db newRoot { db with index := db.index.erase [newRoot.id] } where
  root := rfl
  head := rfl
  subset := by
    intro entry member
    simpa using ForkIndex.mem_erase.mp member
  kept := by
    intro entry member other _
    exact ForkIndex.mem_erase.mpr ⟨member, by simpa using other⟩
  linked := by
    intro entry member
    rcases tree.linked entry (ForkIndex.mem_erase.mp member).1 with toRoot | inside
    · exact .inl toRoot
    · refine .inr ?_
      by_cases cut : entry.block.previous = newRoot.id
      · exact .inl cut
      · obtain ⟨parent, found⟩ := Option.ne_none_iff_exists'.mp inside
        obtain ⟨same, parentEntry, parentMem, rfl⟩ := getBlock_eq_some.mp found
        refine .inr ⟨parentEntry, ForkIndex.mem_erase.mpr ⟨parentMem, ?_⟩, same⟩
        simpa [same] using cut

section

variable (cutting : Cutting db newRoot stage)

include cutting

section

variable {ancestor : BlockId} (low : numFromId ancestor < numFromId newRoot.id)

include low

/-- What is below an earlier block in the stage is not built on the new root: the
way there is cut. -/
theorem not_reach (reach : Reach stage.index ancestor id) : ¬ Reach db.index newRoot.id id := by
  induction reach with
  | self =>
    intro below
    have := below.num_le
    omega
  | child member _ ih =>
    obtain ⟨original, other⟩ := cutting.subset _ member
    exact fun below => ih (below.previous original other)

theorem removed (isRemoved : Removed stage stage' ancestor) :
    Cutting db newRoot stage' ∧
      (∀ entry ∈ stage'.index.entries, entry ∈ stage.index.entries) ∧
        ∀ entry ∈ stage'.index.entries, entry.block.previous ≠ ancestor := by
  obtain ⟨root, head, entries⟩ := isRemoved
  refine ⟨⟨?_, ?_, ?_, ?_, ?_⟩, ?_, ?_⟩
  · exact root.trans cutting.root
  · exact head.trans cutting.head
  · exact fun entry member => cutting.subset entry ((entries entry).mp member).1
  · intro entry member other below
    refine (entries entry).mpr ⟨cutting.kept entry member other below, fun reach => ?_⟩
    exact cutting.not_reach low reach below
  · intro entry member
    obtain ⟨before, notReached⟩ := (entries entry).mp member
    rcases cutting.linked entry before with toRoot | toNewRoot | ⟨parent, parentMem, same⟩
    · exact .inl toRoot
    · exact .inr (.inl toNewRoot)
    · refine .inr (.inr ⟨parent, (entries parent).mpr ⟨parentMem, fun reach => ?_⟩, same⟩)
      exact notReached (.child before (same ▸ reach))
  · exact fun entry member => ((entries entry).mp member).1
  · rintro entry member rfl
    obtain ⟨before, notReached⟩ := (entries entry).mp member
    exact notReached (.child before .self)

end

/-- No removal of an earlier block throws when the head is built on the new root. -/
theorem removeAll (headBelow : Reach db.index newRoot.id db.head.id) (ancestors : List BlockId)
    (low : ∀ ancestor ∈ ancestors, numFromId ancestor < numFromId newRoot.id) :
    ∃ stage', ancestors.forM ForkDatabase.remove stage = .ok () stage' := by
  induction ancestors generalizing stage with
  | nil => exact ⟨stage, rfl⟩
  | cons ancestor rest ih =>
    have safe : ¬ Reach stage.index ancestor stage.head.id := by
      rw [cutting.head]
      exact fun reach => cutting.not_reach (low ancestor (by simp)) reach headBelow
    obtain ⟨next, ran, isRemoved⟩ := remove_spec safe
    obtain ⟨nextCutting, -⟩ := cutting.removed (low ancestor (by simp)) isRemoved
    obtain ⟨stage', ranRest⟩ := ih nextCutting fun other member => low other (by simp [member])
    refine ⟨stage', ?_⟩
    rw [forM_cons, bind_of_ok ran]
    exact ranRest

/-- What the removals leave: nothing on an earlier block, and the head. -/
theorem removedAll {ancestors : List BlockId} (low : ∀ ancestor ∈ ancestors,
      numFromId ancestor < numFromId newRoot.id)
    (ran : ancestors.forM ForkDatabase.remove stage = .ok () stage') :
    Cutting db newRoot stage' ∧ (∀ entry ∈ stage'.index.entries, entry ∈ stage.index.entries) ∧
      (∀ ancestor ∈ ancestors, ancestor ≠ db.head.id ∧ ∀ entry ∈ stage'.index.entries,
        entry.block.previous ≠ ancestor) ∧
      ∀ entry ∈ stage.index.entries, entry.block.id = db.head.id → entry ∈ stage'.index.entries := by
  induction ancestors generalizing stage with
  | nil =>
    obtain ⟨-, rfl⟩ := EStateM.Result.ok.inj ran
    exact ⟨cutting, fun _ member => member, by simp, fun _ member _ => member⟩
  | cons ancestor rest ih =>
    rw [forM_cons] at ran
    obtain ⟨⟨⟩, next, ranFirst, ranRest⟩ := of_bind_ok ran
    obtain ⟨safe, isRemoved⟩ := remove_of_ok ranFirst
    rw [cutting.head] at safe
    obtain ⟨nextCutting, subset, childless⟩ := cutting.removed (low ancestor (by simp)) isRemoved
    obtain ⟨finalCutting, finalSubset, finalChildless, headKept⟩ :=
      ih nextCutting (fun other member => low other (by simp [member])) ranRest
    refine ⟨finalCutting, fun entry member => subset entry (finalSubset entry member),
      forall_mem_cons.mpr ⟨⟨?_, ?_⟩, finalChildless⟩, ?_⟩
    · rintro rfl
      exact safe .self
    · exact fun entry member => childless entry (finalSubset entry member)
    · intro entry member isHead
      refine headKept entry ((isRemoved.entries entry).mpr ⟨member, ?_⟩) isHead
      rwa [isHead]

/-- Once nothing is built on the old root any more, only what is built on the new
one is left. -/
theorem reach_of_mem (rootless : ∀ entry ∈ stage.index.entries, entry.block.previous ≠ db.root.id) :
    ∀ entry ∈ stage.index.entries, Reach db.index newRoot.id entry.block.id := by
  intro entry member
  generalize count : entry.block.blockNum = num
  induction num using Nat.strong_induction_on generalizing entry with
  | _ num ih =>
    have original := (cutting.subset entry member).1
    rcases cutting.linked entry member with toRoot | toNewRoot | ⟨parent, parentMem, same⟩
    · exact absurd toRoot (rootless entry member)
    · exact .child original (toNewRoot ▸ .self)
    · have number := num_of_previous same
      exact .child original (same ▸ ih parent.block.blockNum (by omega) parent parentMem rfl)

end

end Cutting

structure AdvancedRoot (db db' : ForkDatabase) (newRoot : BlockState) : Prop where
  root : db'.root = newRoot
  head : db'.head = db.head
  entries : ∀ entry, entry ∈ db'.index.entries ↔ entry ∈ db.index.entries ∧
    entry.block.id ≠ newRoot.id ∧ Reach db.index newRoot.id entry.block.id

theorem Cutting.advanced {stage : ForkDatabase} {newRoot : BlockState}
    (cutting : Cutting db newRoot stage)
    (rootless : ∀ entry ∈ stage.index.entries, entry.block.previous ≠ db.root.id) :
    AdvancedRoot db { stage with root := newRoot } newRoot where
  root := rfl
  head := cutting.head
  entries := by
    intro entry
    constructor
    · intro member
      obtain ⟨original, other⟩ := cutting.subset entry member
      exact ⟨original, other, cutting.reach_of_mem rootless entry member⟩
    · rintro ⟨original, other, below⟩
      exact cutting.kept entry original other below

section AdvancingRoot

variable {newRoot : BlockState}

section

variable (tree : db.Tree) (found : db.getBlock newRoot.id = some newRoot)

include tree found

/-- The blocks that `advance_root` removes are earlier than the new root, and the last
one is the old root. -/
theorem Tree.ancestors :
    ((db.branch newRoot.id).map (·.previous)).getLast? = some db.root.id ∧
      ∀ ancestor ∈ (db.branch newRoot.id).map (·.previous),
        numFromId ancestor < numFromId newRoot.id := by
  have path := tree.branch_path (.inr found)
  constructor
  · refine path.getLast?_parent fun empty => ?_
    have same : newRoot.id = db.root.id := by
      rw [empty] at path
      generalize newRoot.id = id at path ⊢
      cases path
      rfl
    rw [same, tree.getBlock_root] at found
    cases found
  · intro ancestor member
    obtain ⟨block, blockMem, rfl⟩ := mem_map.mp member
    have le := path.generation_le db.keyed blockMem
    change numFromId block.id ≤ numFromId newRoot.id at le
    have own := block.idNum
    have previous := block.previousNum
    omega

theorem Tree.advanceRoot_eq (valid : db.isValid newRoot.id = true) :
    advanceRoot newRoot.id db =
      (((db.branch newRoot.id).map (·.previous)).forM remove >>= fun _ =>
        modify fun db => { db with root := newRoot }) { db with index := db.index.erase [newRoot.id] } := by
  unfold advanceRoot
  rw [get_bind, found]
  dsimp only
  rw [valid, (tree.ancestors found).1, if_neg (by decide), if_neg (by simp), set_bind]

theorem Tree.advanceRoot_spec (valid : db.isValid newRoot.id = true)
    (headBelow : Reach db.index newRoot.id db.head.id) :
    ∃ db', advanceRoot newRoot.id db = .ok () db' ∧ AdvancedRoot db db' newRoot := by
  obtain ⟨last, low⟩ := tree.ancestors found
  have initial := Cutting.init tree newRoot
  obtain ⟨stage, ran⟩ := initial.removeAll headBelow _ low
  obtain ⟨cutting, -, childless, -⟩ := initial.removedAll low ran
  refine ⟨{ stage with root := newRoot }, ?_, cutting.advanced ?_⟩
  · rw [tree.advanceRoot_eq found valid, bind_of_ok ran]
    rfl
  · exact (childless db.root.id (mem_of_getLast? last)).2

end

/-- `advance_root` returns only when the head is built on the new root. -/
theorem Tree.advanceRoot_of_ok (tree : db.Tree) (headHas : db.Has db.head)
    (ran : advanceRoot id db = .ok () db') :
    ∃ newRoot, db.getBlock newRoot.id = some newRoot ∧ db.isValid newRoot.id = true ∧
      Reach db.index newRoot.id db.head.id ∧ AdvancedRoot db db' newRoot := by
  cases isFound : db.getBlock id with
  | none =>
    unfold advanceRoot at ran
    rw [get_bind, isFound] at ran
    cases ran
  | some newRoot =>
    obtain rfl := (getBlock_eq_some.mp isFound).1
    have valid : db.isValid newRoot.id = true := by
      by_contra invalid
      unfold advanceRoot at ran
      rw [get_bind, isFound] at ran
      dsimp only at ran
      rw [if_pos (by simpa using invalid)] at ran
      cases ran
    obtain ⟨last, low⟩ := tree.ancestors isFound
    rw [tree.advanceRoot_eq isFound valid] at ran
    obtain ⟨⟨⟩, stage, ranAll, moved⟩ := of_bind_ok ran
    obtain ⟨-, rfl⟩ := EStateM.Result.ok.inj moved
    obtain ⟨cutting, -, childless, headKept⟩ := (Cutting.init tree newRoot).removedAll low ranAll
    obtain ⟨otherRoot, rootless⟩ := childless db.root.id (mem_of_getLast? last)
    refine ⟨newRoot, isFound, valid, ?_, cutting.advanced rootless⟩
    by_cases isHead : db.head.id = newRoot.id
    · rw [isHead]
      exact .self
    · rcases headHas with isRoot | found
      · rw [isRoot] at otherRoot
        exact absurd rfl otherRoot
      · obtain ⟨-, entry, member, same⟩ := getBlock_eq_some.mp found
        rw [← same]
        refine cutting.reach_of_mem rootless entry (headKept entry ?_ (by rw [same]))
        refine ForkIndex.mem_erase.mpr ⟨member, ?_⟩
        rw [same]
        simpa using isHead

end AdvancingRoot

/-! ### Trees and branches after a change -/

theorem path_mono (path : blockLinkage.Path db.getBlock id nodes top)
    (kept : ∀ node ∈ nodes, db'.getBlock node.id = some node) :
    blockLinkage.Path db'.getBlock id nodes top :=
  path.mono db.keyed kept

namespace Removed

section

variable (removed : Removed db db' id)

include removed

theorem getBlock_iff :
    db'.getBlock key = some block ↔ db.getBlock key = some block ∧ ¬ Reach db.index id key := by
  simp only [getBlock_eq_some, removed.entries]
  constructor
  · rintro ⟨rfl, entry, ⟨member, kept⟩, rfl⟩
    exact ⟨⟨rfl, entry, member, rfl⟩, kept⟩
  · rintro ⟨⟨rfl, entry, member, rfl⟩, kept⟩
    exact ⟨rfl, entry, ⟨member, kept⟩, rfl⟩

theorem tree (tree : db.Tree) : db'.Tree where
  linked := by
    intro entry member
    obtain ⟨before, kept⟩ := (removed.entries entry).mp member
    rw [removed.root]
    refine (tree.linked entry before).imp_right fun inside => ?_
    obtain ⟨parent, found⟩ := Option.ne_none_iff_exists'.mp inside
    rw [removed.getBlock_iff.mpr ⟨found, fun reach => kept (.child before reach)⟩]
    exact Option.some_ne_none parent
  rootBelow := by
    intro entry member
    rw [removed.root]
    exact tree.rootBelow entry ((removed.entries entry).mp member).1

theorem branch_eq (tree : db.Tree) (has : db.Has block) (kept : ¬ Reach db.index id block.id)
    : db'.branch block.id = db.branch block.id := by
  have path := tree.branch_path has
  refine (removed.tree tree).branch_eq_of_path ?_
  rw [removed.root]
  refine path_mono path fun node member => ?_
  refine removed.getBlock_iff.mpr ⟨path.found db.keyed node member, fun reach => kept ?_⟩
  -- An ancestor of the block that was removed would take the block with it.
  obtain ⟨newer, older, split⟩ := append_of_mem member
  rw [split] at path
  obtain ⟨middle, first, second⟩ := path.split
  cases second with
  | cons found _ =>
    rw [← (getBlock_eq_some.mp found).1] at first
    exact reach.trans (reach_of_path first)

end

end Removed

namespace AdvancedRoot

variable {newRoot : BlockState}

section

variable (advanced : AdvancedRoot db db' newRoot)

include advanced

theorem getBlock_iff :
    db'.getBlock key = some block ↔
      db.getBlock key = some block ∧ key ≠ newRoot.id ∧ Reach db.index newRoot.id key := by
  simp only [getBlock_eq_some, advanced.entries]
  constructor
  · rintro ⟨rfl, entry, ⟨member, below⟩, rfl⟩
    exact ⟨⟨rfl, entry, member, rfl⟩, below⟩
  · rintro ⟨⟨rfl, entry, member, rfl⟩, below⟩
    exact ⟨rfl, entry, ⟨member, below⟩, rfl⟩

theorem tree : db'.Tree where
  linked := by
    intro entry member
    obtain ⟨before, other, below⟩ := (advanced.entries entry).mp member
    rw [advanced.root]
    by_cases direct : entry.block.previous = newRoot.id
    · exact .inl direct
    · refine .inr ?_
      have above := below.previous before other
      obtain ⟨nodes, path⟩ := path_of_reach above
      cases nodes with
      | nil => exact absurd (Linkage.Path.nil_iff.mp path) direct
      | cons parent older =>
        cases path with
        | cons found _ =>
          rw [advanced.getBlock_iff.mpr ⟨found, direct, above⟩]
          exact Option.some_ne_none _
  rootBelow := by
    intro entry member
    obtain ⟨before, other, below⟩ := (advanced.entries entry).mp member
    rw [advanced.root, ← newRoot.idNum]
    have le := (below.previous before other).num_le
    have previous := entry.block.previousNum
    omega

theorem branch_eq (path : blockLinkage.Path db.getBlock id nodes newRoot.id)
    : db'.branch id = nodes := by
  refine advanced.tree.branch_eq_of_path ?_
  rw [advanced.root]
  refine path_mono path fun node member => ?_
  obtain ⟨newer, older, split⟩ := append_of_mem member
  have above := path.lt_generation db.keyed member
  change numFromId newRoot.id < numFromId node.id at above
  refine advanced.getBlock_iff.mpr ⟨path.found db.keyed node member, ?_, ?_⟩
  · intro same
    rw [same] at above
    exact lt_irrefl _ above
  · rw [split] at path
    obtain ⟨middle, -, second⟩ := path.split
    cases second with
    | cons found rest =>
      have reach := reach_of_path (.cons found rest)
      rwa [← (getBlock_eq_some.mp found).1] at reach

end

end AdvancedRoot

/-! ### `add` -/

structure Added (db db' : ForkDatabase) (n : BlockState) : Prop where
  fresh : db.getBlock n.id = none
  linked : ∃ parent, parent.id = n.previous ∧ db.Has parent
  root : db'.root = db.root
  entries : ∀ entry, entry ∈ db'.index.entries ↔ entry = ⟨n, false⟩ ∨ entry ∈ db.index.entries
  head : (∃ first, db'.index.begin = some first ∧ first.validated = true ∧ db'.head = first.block) ∨
    (∀ entry ∈ db'.index.entries, entry.validated = false) ∧ db'.head = db.head

theorem add_of_insert {n : BlockState} {index : ForkIndex}
    (linkable : db.getBlockHeader n.previous ≠ none) (inserted : db.index.insert n = some index) :
    ∃ db', (∀ ignoreDuplicate, add n ignoreDuplicate db = .ok () db') ∧ Added db db' n := by
  obtain ⟨fresh, entries⟩ := insert_eq_some inserted
  have fresh' : db.getBlock n.id = none := by
    unfold getBlock
    rw [fresh]
    rfl
  have linked : ∃ parent, parent.id = n.previous ∧ db.Has parent := by
    obtain ⟨parent, found⟩ := Option.ne_none_iff_exists'.mp linkable
    unfold getBlockHeader at found
    split at found
    case isTrue same => exact ⟨db.root, same, .inl rfl⟩
    case isFalse =>
      have same := (getBlock_eq_some.mp found).1
      exact ⟨parent, same, .inr (same ▸ found)⟩
  obtain ⟨first, isFirst⟩ := begin_isSome ((entries ⟨n, false⟩).mpr (.inl rfl))
  obtain ⟨candidate, validated⟩ := first
  cases validated with
  | true =>
    refine ⟨{ db with index, head := candidate }, fun ignoreDuplicate => ?_, fresh', linked, rfl,
      entries, .inl ⟨_, isFirst, rfl, rfl⟩⟩
    unfold add
    rw [get_bind, if_neg linkable, inserted]
    dsimp only
    rw [isFirst]
    rfl
  | false =>
    refine ⟨{ db with index }, fun ignoreDuplicate => ?_, fresh', linked, rfl, entries,
      .inr ⟨fun entry member => ?_, rfl⟩⟩
    · unfold add
      rw [get_bind, if_neg linkable, inserted]
      dsimp only
      rw [isFirst]
      rfl
    · by_contra validated
      have := (begin_validated isFirst member (by simpa using validated)).1
      cases this

/-- `add` either throws and leaves the database alone, or adds the block. -/
theorem add_cases (db : ForkDatabase) (n : BlockState) :
    (∃ thrown, thrown.code ≠ .fault ∧ add n false db = .error thrown db) ∨
      ∃ db', add n false db = .ok () db' ∧ Added db db' n := by
  by_cases unlinkable : db.getBlockHeader n.previous = none
  · refine .inl ⟨⟨.unlinkableBlockException, "unlinkable block"⟩, by decide, ?_⟩
    unfold add
    rw [get_bind, if_pos unlinkable]
    rfl
  cases inserted : db.index.insert n with
  | none =>
    refine .inl ⟨⟨.forkDatabaseException, "duplicate block added"⟩, by decide, ?_⟩
    unfold add
    rw [get_bind, if_neg unlinkable, inserted]
    rfl
  | some index =>
    obtain ⟨db', ran, added⟩ := add_of_insert unlinkable inserted
    exact .inr ⟨db', ran false, added⟩

/-- With `ignore_duplicate` a block that is there is not added again. -/
theorem add_of_ok {n : BlockState} {ignoreDuplicate : Bool}
    (ran : add n ignoreDuplicate db = .ok () db') : db' = db ∨ Added db db' n := by
  by_cases unlinkable : db.getBlockHeader n.previous = none
  · unfold add at ran
    rw [get_bind, if_pos unlinkable] at ran
    cases ran
  cases inserted : db.index.insert n with
  | none =>
    unfold add at ran
    rw [get_bind, if_neg unlinkable, inserted] at ran
    cases ignoreDuplicate with
    | false => cases ran
    | true => exact .inl (EStateM.Result.ok.inj ran).2.symm
  | some index =>
    obtain ⟨grown, accepted, added⟩ := add_of_insert unlinkable inserted
    obtain ⟨-, rfl⟩ := EStateM.Result.ok.inj ((accepted ignoreDuplicate).symm.trans ran)
    exact .inr added

namespace Added

variable {n : BlockState}

section

variable (added : Added db db' n)

include added

theorem getBlock_iff :
    db'.getBlock key = some block ↔ (key = n.id ∧ block = n) ∨ db.getBlock key = some block := by
  simp only [getBlock_eq_some, added.entries]
  constructor
  · rintro ⟨rfl, entry, rfl | member, rfl⟩
    · exact .inl ⟨rfl, rfl⟩
    · exact .inr ⟨rfl, entry, member, rfl⟩
  · rintro (⟨rfl, rfl⟩ | ⟨rfl, entry, member, rfl⟩)
    · exact ⟨rfl, _, .inl rfl, rfl⟩
    · exact ⟨rfl, entry, .inr member, rfl⟩

theorem getBlock_new : db'.getBlock n.id = some n := added.getBlock_iff.mpr (.inl ⟨rfl, rfl⟩)

theorem has_of_has (has : db.Has block) : db'.Has block := by
  rcases has with rfl | found
  · exact .inl added.root.symm
  · exact .inr (added.getBlock_iff.mpr (.inr found))

theorem tree (tree : db.Tree) : db'.Tree := by
  obtain ⟨parent, same, has⟩ := added.linked
  have parentNum := num_of_previous same
  constructor
  case linked =>
    intro entry member
    rw [added.root]
    have parentIn : ∀ {child : BlockState}, (∃ parent, parent.id = child.previous ∧ db.Has parent) →
        child.previous = db.root.id ∨ db'.getBlock child.previous ≠ none := by
      rintro child ⟨parent, same, rfl | found⟩
      · exact .inl same.symm
      · rw [← same, added.getBlock_iff.mpr (.inr found)]
        exact .inr (Option.some_ne_none _)
    rcases (added.entries entry).mp member with rfl | before
    · exact parentIn added.linked
    · exact parentIn (tree.exists_previous (getBlock_of_mem before))
  case rootBelow =>
    intro entry member
    rw [added.root]
    rcases (added.entries entry).mp member with rfl | before
    · change db.root.blockNum < n.blockNum
      rcases has with rfl | found
      · omega
      · have := tree.rootBelow_of_getBlock found
        omega
    · exact tree.rootBelow entry before

theorem branch_eq (tree : db.Tree) (has : db.Has block) :
    db'.branch block.id = db.branch block.id := by
  have path := tree.branch_path has
  refine (added.tree tree).branch_eq_of_path ?_
  rw [added.root]
  exact path_mono path fun node member =>
    added.getBlock_iff.mpr (.inr (path.found db.keyed node member))

end

end Added

/-! ### `mark_valid` -/

theorem isValid_of_mem (member : entry ∈ db.index.entries) :
    db.isValid entry.block.id = entry.validated := by
  unfold isValid
  rw [ForkIndex.find_eq_some.mpr ⟨member, rfl⟩]

theorem Tree.isValid_root (tree : db.Tree) : db.isValid db.root.id = true := by
  have missing := tree.getBlock_root
  unfold getBlock at missing
  unfold isValid
  rw [Option.map_eq_none_iff.mp missing]
  simp

/-- The database after `mark_valid`. The head moves when the first validated block
is preferred to it; a block that was validated before changes nothing. -/
structure Marked (db db' : ForkDatabase) (h : BlockState) : Prop where
  root : db'.root = db.root
  entries : ∀ entry, entry ∈ db'.index.entries ↔ ∃ before ∈ db.index.entries,
    before.block = entry.block ∧
      entry.validated = (before.validated || decide (entry.block.id = h.id))
  head : db.isValid h.id = true ∧ db'.head = db.head ∨ db.isValid h.id = false ∧
    ∃ first, db'.index.begin = some first ∧
      db'.head = if firstPreferred first.block db.head then first.block else db.head

theorem marked_of_valid (valid : db.isValid block.id = true) : Marked db db block where
  root := rfl
  entries := by
    intro entry
    constructor
    · intro member
      refine ⟨entry, member, rfl, ?_⟩
      by_cases same : entry.block.id = block.id
      · have flag := isValid_of_mem member
        rw [same, valid] at flag
        simp [← flag]
      · simp [same]
    · rintro ⟨before, member, same, flag⟩
      suffices unchanged : entry = before by rwa [unchanged]
      refine ForkEntry.ext same.symm ?_
      by_cases marked : entry.block.id = block.id
      · have validated := isValid_of_mem member
        rw [same, marked, valid] at validated
        rw [flag, ← validated, Bool.true_or]
      · simpa [marked] using flag
  head := .inl ⟨valid, rfl⟩

theorem markValid_spec (found : db.getBlock block.id = some block) :
    ∃ db', markValid block db = .ok () db' ∧ Marked db db' block := by
  unfold markValid
  rw [get_bind]
  by_cases valid : db.isValid block.id = true
  · rw [if_pos valid]
    exact ⟨db, rfl, marked_of_valid valid⟩
  obtain ⟨-, entry, member, rfl⟩ := getBlock_eq_some.mp found
  have marked : (⟨entry.block, true⟩ : ForkEntry) ∈
      (db.index.setValidated entry.block.id).entries :=
    ForkIndex.mem_setValidated.mpr ⟨entry, member, rfl, by simp⟩
  obtain ⟨first, isFirst⟩ := begin_isSome marked
  rw [if_neg valid]
  change ∃ db', (if db.getBlock entry.block.id = none then _ else _ : ForkDatabaseM Unit) db = _ ∧ _
  rw [if_neg (by simp [found])]
  dsimp only
  rw [isFirst]
  dsimp only
  split_ifs with preferred
  · exact ⟨_, rfl, rfl, fun _ => mem_setValidated,
      .inr ⟨by simpa using valid, first, isFirst, (if_pos preferred).symm⟩⟩
  · exact ⟨_, rfl, rfl, fun _ => mem_setValidated,
      .inr ⟨by simpa using valid, first, isFirst, (if_neg preferred).symm⟩⟩

namespace Marked

section

variable (marked : Marked db db' block)

include marked

theorem getBlock_eq : db'.getBlock = db.getBlock := by
  funext key
  refine Option.ext fun found => ?_
  simp only [getBlock_eq_some, marked.entries]
  constructor
  · rintro ⟨same, entry, ⟨before, member, sameBlock, -⟩, rfl⟩
    exact ⟨same, before, member, sameBlock⟩
  · rintro ⟨same, before, member, rfl⟩
    exact ⟨same, ⟨before.block, before.validated || decide (before.block.id = block.id)⟩,
      ⟨before, member, rfl, rfl⟩, rfl⟩

theorem has_iff {other : BlockState} : db'.Has other ↔ db.Has other := by
  unfold Has
  rw [marked.getBlock_eq, marked.root]

theorem tree (tree : db.Tree) : db'.Tree where
  linked := by
    intro entry member
    obtain ⟨before, beforeMem, same, -⟩ := (marked.entries entry).mp member
    rw [marked.getBlock_eq, marked.root, ← same]
    exact tree.linked before beforeMem
  rootBelow := by
    intro entry member
    obtain ⟨before, beforeMem, same, -⟩ := (marked.entries entry).mp member
    rw [marked.root, ← same]
    exact tree.rootBelow before beforeMem

end

end Marked

end ForkDatabase

end CodexRelay.Chain
