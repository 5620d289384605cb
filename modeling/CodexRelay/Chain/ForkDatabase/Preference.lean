import CodexRelay.Chain.ForkDatabase.Operations

/-!
Contract: which blocks are validated and which of them is the head.

Owns:
- `Ranked`, the invariant of the fork database: validated blocks are built on
  validated blocks, and none of them is preferred to the head;
- that the four operations keep it;
- `MarkedAll`, a whole branch being validated;
- what `pending_head` returns.
-/

namespace CodexRelay.Chain

open Library List ForkIndex

variable {other top : BlockId}

variable {nodes : List BlockState} {entry : ForkEntry}

namespace ForkDatabase

variable {db db' : ForkDatabase} {block : BlockState} {id : BlockId}

theorem Tree.isValid_iff (tree : db.Tree) :
    db.isValid id = true ↔ id = db.root.id ∨
      ∃ entry ∈ db.index.entries, entry.block.id = id ∧ entry.validated = true := by
  constructor
  · intro valid
    unfold isValid at valid
    cases found : db.index.find id with
    | none =>
      rw [found] at valid
      exact .inl (of_decide_eq_true valid).symm
    | some entry =>
      rw [found] at valid
      obtain ⟨member, same⟩ := ForkIndex.find_eq_some.mp found
      exact .inr ⟨entry, member, same, valid⟩
  · rintro (rfl | ⟨entry, member, rfl, validated⟩)
    · exact tree.isValid_root
    · rw [isValid_of_mem member, validated]

/-- What every sequence of operations keeps: the head is the root or a validated block, and
no validated block is preferred to it. -/
structure Sound (db : ForkDatabase) : Prop where
  tree : db.Tree
  headHas : db.Has db.head
  headValid : db.isValid db.head.id = true
  best : ∀ entry ∈ db.index.entries, entry.validated = true → ¬ firstPreferred entry.block db.head

/-- The invariant of a fork database whose blocks are validated after their parents. -/
structure Ranked (db : ForkDatabase) : Prop where
  tree : db.Tree
  headHas : db.Has db.head
  headValid : db.isValid db.head.id = true
  closed : ∀ entry ∈ db.index.entries, entry.validated = true →
    db.isValid entry.block.previous = true
  best : ∀ entry ∈ db.index.entries, entry.validated = true → ¬ firstPreferred entry.block db.head

theorem Ranked.sound (ranked : db.Ranked) : db.Sound :=
  ⟨ranked.tree, ranked.headHas, ranked.headValid, ranked.best⟩

theorem Sound.ranked (sound : db.Sound) (closed : ∀ entry ∈ db.index.entries,
    entry.validated = true → db.isValid entry.block.previous = true) : db.Ranked :=
  ⟨sound.tree, sound.headHas, sound.headValid, closed, sound.best⟩

namespace Ranked

section

variable (ranked : db.Ranked) (unvalidated : db.isValid id = false)

include ranked unvalidated

/-- What is built on a block that is not validated is not validated either. -/
theorem not_valid_of_reach (reach : Reach db.index id other) : db.isValid other = false := by
  induction reach with
  | self => exact unvalidated
  | @child entry member _ ih =>
    rw [isValid_of_mem member]
    by_contra validated
    have parentValid := ranked.closed entry member (by simpa using validated)
    rw [ih] at parentValid
    cases parentValid

theorem not_reach_head : ¬ Reach db.index id db.head.id := by
  intro reach
  have headUnvalidated := ranked.not_valid_of_reach unvalidated reach
  rw [ranked.headValid] at headUnvalidated
  cases headUnvalidated

end

/-- A path from a validated block passes only validated blocks. -/
theorem valid_of_path (ranked : db.Ranked) (path : blockLinkage.Path db.getBlock id nodes top)
    (valid : db.isValid id = true) :
    db.isValid top = true ∧ ∀ node ∈ nodes, db.isValid node.id = true := by
  induction path with
  | nil => exact ⟨valid, by simp⟩
  | cons found _ ih =>
    obtain ⟨rfl, entry, member, rfl⟩ := getBlock_eq_some.mp found
    rw [isValid_of_mem member] at valid
    obtain ⟨topValid, older⟩ := ih (ranked.closed entry member valid)
    refine ⟨topValid, forall_mem_cons.mpr ⟨?_, older⟩⟩
    rw [isValid_of_mem member, valid]

end Ranked

/-! ### `add` -/

namespace Added

variable {n : BlockState}

section

variable (added : Added db db' n)

include added

theorem isValid_of_isValid (tree : db.Tree) (valid : db.isValid id = true) :
    db'.isValid id = true := by
  rw [(added.tree tree).isValid_iff, added.root]
  refine (tree.isValid_iff.mp valid).imp_right ?_
  rintro ⟨entry, member, same, validated⟩
  exact ⟨entry, (added.entries entry).mpr (.inr member), same, validated⟩

theorem mem_of_validated (member : entry ∈ db'.index.entries) (validated : entry.validated = true) :
    entry ∈ db.index.entries := by
  rcases (added.entries entry).mp member with rfl | before
  · cases validated
  · exact before

theorem sound (sound : db.Sound) : db'.Sound := by
  have tree' := added.tree sound.tree
  rcases added.head with ⟨first, isFirst, validated, head⟩ | ⟨unvalidated, head⟩
  · have member := begin_mem isFirst
    refine ⟨tree', ?_, ?_, ?_⟩
    · rw [head]
      exact .inr (getBlock_of_mem member)
    · rw [head, isValid_of_mem member, validated]
    · intro entry entryMem entryValid
      rw [head]
      exact (begin_validated isFirst entryMem entryValid).2
  · refine ⟨tree', ?_, ?_, ?_⟩
    · rw [head]
      exact added.has_of_has sound.headHas
    · rw [head]
      exact added.isValid_of_isValid sound.tree sound.headValid
    · intro entry member validated
      rw [unvalidated entry member] at validated
      cases validated

theorem ranked (ranked : db.Ranked) : db'.Ranked := by
  refine (added.sound ranked.sound).ranked fun entry member validated => ?_
  exact added.isValid_of_isValid ranked.tree
    (ranked.closed entry (added.mem_of_validated member validated) validated)

/-- Blocks that were in the database are built on such blocks only. -/
theorem found_of_path (tree : db.Tree) (path : blockLinkage.Path db'.getBlock id nodes top)
    (old : id = db.root.id ∨ db.getBlock id ≠ none) :
    ∀ node ∈ nodes, db.getBlock node.id = some node := by
  induction path with
  | nil => simp
  | @cons key _ node _ found _ ih =>
    have before : db.getBlock key = some node := by
      rcases added.getBlock_iff.mp found with ⟨rfl, rfl⟩ | before
      · rcases old with isRoot | inside
        · have missing := (added.tree tree).getBlock_root
          rw [added.root, ← isRoot, added.getBlock_new] at missing
          cases missing
        · exact absurd added.fresh inside
      · exact before
    obtain ⟨same, entry, member, rfl⟩ := getBlock_eq_some.mp before
    refine forall_mem_cons.mpr ⟨?_, ih (tree.linked entry member)⟩
    exact getBlock_of_mem member

end

end Added

/-- The first validated block of `by_lib_block_num` is the head. The head can be another
block with the same LIB and number. -/
def HeadLeads (db : ForkDatabase) : Prop :=
  ∀ first, db.index.begin = some first → first.validated = true → first.block = db.head

theorem Added.head_iff {n : BlockState} (added : Added db db' n) :
    db'.head = db.head ↔ HeadLeads db := by
  have sameFirst : ∀ {first first' : ForkEntry}, db.index.begin = some first →
      db'.index.begin = some first' → first'.validated = true → first.block = first'.block := by
    intro first first' isFirst isFirst' validated'
    have member' := added.mem_of_validated (begin_mem isFirst') validated'
    have member := (added.entries first).mpr (.inr (begin_mem isFirst))
    have same := ForkEntry.id_eq_of_not_precedes (not_precedes_begin isFirst' _ member)
      (not_precedes_begin isFirst _ member')
    rw [eq_of_id (begin_mem isFirst) member' same]
  constructor
  · intro kept first isFirst validated
    have member := (added.entries first).mpr (.inr (begin_mem isFirst))
    rcases added.head with ⟨first', isFirst', validated', head⟩ | ⟨unvalidated, -⟩
    · rw [sameFirst isFirst isFirst' validated', ← head, kept]
    · rw [unvalidated first member] at validated
      cases validated
  · intro leads
    rcases added.head with ⟨first', isFirst', validated', head⟩ | ⟨-, head⟩
    · have member' := added.mem_of_validated (begin_mem isFirst') validated'
      obtain ⟨first, isFirst⟩ := begin_isSome member'
      have validated := (begin_validated isFirst member' validated').1
      rw [head, ← sameFirst isFirst isFirst' validated', leads first isFirst validated]
    · exact head

/-! ### `remove` -/

namespace Removed

section

variable (removed : Removed db db' id)

include removed

theorem isValid_of_not_reach (tree : db.Tree) (kept : ¬ Reach db.index id other)
    (valid : db.isValid other = true) : db'.isValid other = true := by
  rw [(removed.tree tree).isValid_iff, removed.root]
  refine (tree.isValid_iff.mp valid).imp_right ?_
  rintro ⟨entry, member, rfl, validated⟩
  exact ⟨entry, (removed.entries entry).mpr ⟨member, kept⟩, rfl, validated⟩

theorem has_of_not_reach (kept : ¬ Reach db.index id block.id) (has : db.Has block) :
    db'.Has block := by
  rcases has with rfl | found
  · exact .inl removed.root.symm
  · exact .inr (removed.getBlock_iff.mpr ⟨found, kept⟩)

theorem sound (sound : db.Sound) (safe : ¬ Reach db.index id db.head.id) : db'.Sound where
  tree := removed.tree sound.tree
  headHas := by
    rw [removed.head]
    exact removed.has_of_not_reach safe sound.headHas
  headValid := by
    rw [removed.head]
    exact removed.isValid_of_not_reach sound.tree safe sound.headValid
  best := by
    intro entry member
    rw [removed.head]
    exact sound.best entry ((removed.entries entry).mp member).1

section

variable (ranked : db.Ranked) (unvalidated : db.isValid id = false)

include ranked unvalidated

theorem isValid_of_isValid (valid : db.isValid other = true) : db'.isValid other = true := by
  refine removed.isValid_of_not_reach ranked.tree (fun reach => ?_) valid
  rw [ranked.not_valid_of_reach unvalidated reach] at valid
  cases valid

theorem has_of_has (has : db.Has block) (valid : db.isValid block.id = true) : db'.Has block := by
  refine removed.has_of_not_reach (fun reach => ?_) has
  rw [ranked.not_valid_of_reach unvalidated reach] at valid
  cases valid

end

theorem ranked (ranked : db.Ranked) (unvalidated : db.isValid id = false) : db'.Ranked := by
  have sound := removed.sound ranked.sound (ranked.not_reach_head unvalidated)
  refine sound.ranked fun entry member validated => ?_
  have before := ((removed.entries entry).mp member).1
  exact removed.isValid_of_isValid ranked unvalidated (ranked.closed entry before validated)

end

end Removed

/-! ### `advance_root` -/

namespace AdvancedRoot

variable {newRoot : BlockState}

section

variable (advanced : AdvancedRoot db db' newRoot)

include advanced

section

variable (tree : db.Tree) (found : db.getBlock newRoot.id = some newRoot)

include tree found

theorem has_of_reach (has : db.Has block) (reach : Reach db.index newRoot.id block.id)
    : db'.Has block := by
  by_cases same : block.id = newRoot.id
  · rw [Has, advanced.root]
    refine .inl ?_
    rcases has with rfl | inside
    · rw [← same, tree.getBlock_root] at found
      cases found
    · rw [same, found] at inside
      exact (Option.some_inj.mp inside).symm
  · rcases has with rfl | inside
    · have above := reach.num_le
      have below := tree.rootBelow_of_getBlock found
      rw [newRoot.idNum, db.root.idNum] at above
      omega
    · exact .inr (advanced.getBlock_iff.mpr ⟨inside, same, reach⟩)

theorem isValid_of_reach (reach : Reach db.index newRoot.id id) (valid : db.isValid id = true) :
    db'.isValid id = true := by
  rw [advanced.tree.isValid_iff, advanced.root]
  by_cases same : id = newRoot.id
  · exact .inl same
  · refine .inr ?_
    rcases tree.isValid_iff.mp valid with rfl | ⟨entry, member, rfl, validated⟩
    · have above := reach.num_le
      have below := tree.rootBelow_of_getBlock found
      rw [newRoot.idNum, db.root.idNum] at above
      omega
    · exact ⟨entry, (advanced.entries entry).mpr ⟨member, same, reach⟩, rfl, validated⟩

end

theorem sound (sound : db.Sound) (found : db.getBlock newRoot.id = some newRoot)
    (headBelow : Reach db.index newRoot.id db.head.id) : db'.Sound where
  tree := advanced.tree
  headHas := by
    rw [advanced.head]
    exact advanced.has_of_reach sound.tree found sound.headHas headBelow
  headValid := by
    rw [advanced.head]
    exact advanced.isValid_of_reach sound.tree found headBelow sound.headValid
  best := by
    intro entry member
    rw [advanced.head]
    exact sound.best entry ((advanced.entries entry).mp member).1

theorem ranked (ranked : db.Ranked) (found : db.getBlock newRoot.id = some newRoot)
    (headBelow : Reach db.index newRoot.id db.head.id) : db'.Ranked := by
  refine (advanced.sound ranked.sound found headBelow).ranked fun entry member validated => ?_
  obtain ⟨before, other, reach⟩ := (advanced.entries entry).mp member
  exact advanced.isValid_of_reach ranked.tree found (reach.previous before other)
    (ranked.closed entry before validated)

end

end AdvancedRoot

/-! ### `mark_valid` -/

namespace Marked

section

variable (marked : Marked db db' block)

include marked

theorem isValid_eq (tree : db.Tree) :
    db'.isValid id = true ↔ db.isValid id = true ∨ (db.getBlock id ≠ none ∧ id = block.id) := by
  rw [(marked.tree tree).isValid_iff, tree.isValid_iff, marked.root, or_assoc]
  refine or_congr_right ?_
  constructor
  · rintro ⟨entry, member, rfl, validated⟩
    obtain ⟨before, beforeMem, same, flag⟩ := (marked.entries entry).mp member
    rw [flag, Bool.or_eq_true, decide_eq_true_eq] at validated
    refine validated.imp (fun validated => ⟨before, beforeMem, by rw [same], validated⟩) fun own => ?_
    rw [← same, getBlock_of_mem beforeMem]
    exact ⟨Option.some_ne_none _, by rw [same, own]⟩
  · rintro (⟨before, member, rfl, validated⟩ | ⟨inside, rfl⟩)
    · exact ⟨⟨before.block, true⟩, (marked.entries _).mpr ⟨before, member, rfl, by simp [validated]⟩,
        rfl, rfl⟩
    · obtain ⟨found, isFound⟩ := Option.ne_none_iff_exists'.mp inside
      obtain ⟨same, before, member, rfl⟩ := getBlock_eq_some.mp isFound
      exact ⟨⟨before.block, true⟩, (marked.entries _).mpr ⟨before, member, rfl, by simp [same]⟩,
        same, rfl⟩

theorem sound (sound : db.Sound) (found : db.getBlock block.id = some block) : db'.Sound := by
  have kept : db'.Has db.head ∧ db'.isValid db.head.id = true :=
    ⟨marked.has_iff.mpr sound.headHas, (marked.isValid_eq sound.tree).mpr (.inl sound.headValid)⟩
  suffices rest : db'.Has db'.head ∧ db'.isValid db'.head.id = true ∧
      ∀ entry ∈ db'.index.entries, entry.validated = true → ¬ firstPreferred entry.block db'.head from
    ⟨marked.tree sound.tree, rest.1, rest.2.1, rest.2.2⟩
  rcases marked.head with ⟨valid, head⟩ | ⟨-, first, isFirst, head⟩
  · rw [head]
    refine ⟨kept.1, kept.2, fun entry member validated => ?_⟩
    obtain ⟨before, beforeMem, same, flag⟩ := (marked.entries entry).mp member
    rw [← same]
    refine sound.best before beforeMem ?_
    rw [validated] at flag
    rcases Bool.or_eq_true_iff.mp flag.symm with validated' | own
    · exact validated'
    · rw [← isValid_of_mem beforeMem, same, of_decide_eq_true own, valid]
  · have member := begin_mem isFirst
    -- The block itself is validated now, so the first one is a validated block.
    have own : (⟨block, true⟩ : ForkEntry) ∈ db'.index.entries := by
      obtain ⟨-, before, beforeMem, same⟩ := getBlock_eq_some.mp found
      exact (marked.entries _).mpr ⟨before, beforeMem, same, by simp⟩
    have validated := (begin_validated isFirst own rfl).1
    have notBefore : ∀ entry ∈ db'.index.entries, entry.validated = true →
        ¬ firstPreferred entry.block first.block := fun entry entryMem entryValid =>
      (begin_validated isFirst entryMem entryValid).2
    split_ifs at head with preferred
    · rw [head]
      refine ⟨.inr (getBlock_of_mem member), ?_, notBefore⟩
      rw [isValid_of_mem member, validated]
    · rw [head]
      exact ⟨kept.1, kept.2, fun entry entryMem entryValid =>
        not_firstPreferred_trans (notBefore entry entryMem entryValid) preferred⟩

theorem ranked (ranked : db.Ranked) (found : db.getBlock block.id = some block)
    (parentValid : db.isValid block.previous = true) : db'.Ranked := by
  refine (marked.sound ranked.sound found).ranked fun entry member validated => ?_
  obtain ⟨before, beforeMem, same, flag⟩ := (marked.entries entry).mp member
  refine (marked.isValid_eq ranked.tree).mpr (.inl ?_)
  rw [validated] at flag
  rcases Bool.or_eq_true_iff.mp flag.symm with validated' | own
  · rw [← same]
    exact ranked.closed before beforeMem validated'
  · have sameId : before.block.id = block.id := by rw [same, of_decide_eq_true own]
    have sameBlock := getBlock_of_mem beforeMem
    rw [sameId, found] at sameBlock
    rw [← same, ← Option.some_inj.mp sameBlock]
    exact parentValid

/-- The head stays or moves to the block, since no block that was validated before is
preferred to it. -/
theorem head_cases (ranked : db.Ranked) (found : db.getBlock block.id = some block) :
    db'.head = db.head ∨ db'.head = block := by
  rcases marked.head with ⟨-, head⟩ | ⟨-, first, isFirst, head⟩
  · exact .inl head
  split_ifs at head with preferred
  case neg => exact .inl head
  obtain ⟨-, before, beforeMem, same⟩ := getBlock_eq_some.mp found
  have own : (⟨block, true⟩ : ForkEntry) ∈ db'.index.entries :=
    (marked.entries _).mpr ⟨before, beforeMem, same, by simp⟩
  have validated := (begin_validated isFirst own rfl).1
  obtain ⟨old, oldMem, oldSame, flag⟩ := (marked.entries first).mp (begin_mem isFirst)
  rw [validated] at flag
  rcases Bool.or_eq_true_iff.mp flag.symm with wasValid | isBlock
  · rw [← oldSame] at preferred
    exact absurd preferred (ranked.best old oldMem wasValid)
  · have sameBlock := getBlock_of_mem oldMem
    rw [oldSame, of_decide_eq_true isBlock, found] at sameBlock
    rw [head, ← Option.some_inj.mp sameBlock]
    exact .inr rfl

theorem head_of_valid (valid : db.isValid block.id = true) : db'.head = db.head := by
  rcases marked.head with ⟨-, head⟩ | ⟨unvalidated, -⟩
  · exact head
  · rw [valid] at unvalidated
    cases unvalidated

section

variable (ranked : db.Ranked) (found : db.getBlock block.id = some block)

include ranked found

theorem head_eq (preferred : firstPreferred block db.head) : db'.head = block := by
  have best := (marked.sound ranked.sound found).best
  obtain ⟨-, before, beforeMem, same⟩ := getBlock_eq_some.mp found
  refine (marked.head_cases ranked found).resolve_left fun kept => ?_
  rw [kept] at best
  exact best ⟨block, true⟩ ((marked.entries _).mpr ⟨before, beforeMem, same, by simp⟩) rfl preferred

theorem head_of_not_preferred (notPreferred : ¬ firstPreferred block db.head)
    : db'.head = db.head := by
  rcases marked.head with ⟨-, head⟩ | ⟨-, first, -, head⟩
  · exact head
  split_ifs at head with preferred
  · rcases marked.head_cases ranked found with kept | moved
    · exact kept
    · rw [← head, moved] at preferred
      exact absurd preferred notPreferred
  · exact head

end

end

end Marked

/-! ### A branch of validated blocks -/

theorem reach_congr (same : db'.getBlock = db.getBlock) {ancestor : BlockId} :
    Reach db'.index ancestor id ↔ Reach db.index ancestor id := by
  have forward : ∀ {first second : ForkDatabase}, first.getBlock = second.getBlock →
      Reach first.index ancestor id → Reach second.index ancestor id := by
    intro first second same reach
    obtain ⟨nodes, path⟩ := path_of_reach reach
    rw [same] at path
    exact reach_of_path path
  exact ⟨forward same, forward same.symm⟩

/-- `MarkedAll db blocks db'`: the blocks (newest first) were marked, the oldest one
first. -/
inductive MarkedAll (db : ForkDatabase) : List BlockState → ForkDatabase → Prop where
  | nil : MarkedAll db [] db
  | cons {older : List BlockState} {middle db' : ForkDatabase} {block : BlockState}
      (before : MarkedAll db older middle) (marked : Marked middle db' block) :
      MarkedAll db (block :: older) db'

namespace MarkedAll

variable {blocks : List BlockState}

section

variable (all : MarkedAll db blocks db')

include all

theorem getBlock_eq : db'.getBlock = db.getBlock := by
  induction all with
  | nil => rfl
  | cons _ marked ih => rw [marked.getBlock_eq, ih]

theorem root : db'.root = db.root := by
  induction all with
  | nil => rfl
  | cons _ marked ih => rw [marked.root, ih]

theorem branch_eq (id : BlockId) : db'.branch id = db.branch id := by
  unfold branch
  rw [all.getBlock_eq]

theorem has_iff : db'.Has block ↔ db.Has block := by
  unfold Has
  rw [all.getBlock_eq, all.root]

theorem tree (tree : db.Tree) : db'.Tree := by
  induction all with
  | nil => exact tree
  | cons _ marked ih => exact marked.tree ih

theorem isValid_iff (tree : db.Tree) (found : ∀ block ∈ blocks, db.getBlock block.id = some block) :
    db'.isValid id = true ↔ db.isValid id = true ∨ ∃ block ∈ blocks, id = block.id := by
  induction all with
  | nil => simp
  | @cons older middle _ block before marked ih =>
    obtain ⟨own, rest⟩ := forall_mem_cons.mp found
    rw [marked.isValid_eq (before.tree tree), ih rest, before.getBlock_eq, or_assoc]
    refine or_congr_right ?_
    rw [exists_mem_cons_iff, or_comm]
    refine or_congr_left ⟨And.right, ?_⟩
    rintro rfl
    rw [own]
    exact ⟨Option.some_ne_none _, rfl⟩

theorem ranked (ranked : db.Ranked) (path : blockLinkage.Path db.getBlock id blocks top)
    (valid : db.isValid top = true) : db'.Ranked := by
  induction all generalizing id with
  | nil => exact ranked
  | @cons older middle _ block before marked ih =>
    cases path with
    | cons found rest =>
      have same := (getBlock_eq_some.mp found).1
      have olderFound := rest.found db.keyed
      have previousValid : middle.isValid block.previous = true := by
        rw [before.isValid_iff ranked.tree olderFound]
        cases rest with
        | nil => exact .inl valid
        | cons parentFound _ =>
          exact .inr ⟨_, mem_cons_self, (getBlock_eq_some.mp parentFound).1.symm⟩
      refine marked.ranked (ih rest) ?_ previousValid
      rw [before.getBlock_eq, same, found]

section

variable (ranked : db.Ranked) (path : blockLinkage.Path db.getBlock id blocks top)
  (valid : db.isValid top = true)

include ranked path valid

theorem head_cases : db'.head = db.head ∨ db'.head ∈ blocks := by
  induction all generalizing id with
  | nil => exact .inl rfl
  | @cons older middle _ block before marked ih =>
    cases path with
    | cons found rest =>
      have own : middle.getBlock block.id = some block := by
        rw [before.getBlock_eq, (getBlock_eq_some.mp found).1, found]
      rcases marked.head_cases (before.ranked ranked rest valid) own with kept | moved
      · rw [kept]
        exact (ih rest).imp_right (mem_cons_of_mem _)
      · rw [moved]
        exact .inr mem_cons_self

theorem head_of_not_preferred (notPreferred : ∀ block ∈ blocks, ¬ firstPreferred block db.head)
    : db'.head = db.head := by
  induction all generalizing id with
  | nil => rfl
  | @cons older middle _ block before marked ih =>
    cases path with
    | cons found rest =>
      obtain ⟨own, others⟩ := forall_mem_cons.mp notPreferred
      have kept := ih rest others
      have inside : middle.getBlock block.id = some block := by
        rw [before.getBlock_eq, (getBlock_eq_some.mp found).1, found]
      rw [← kept] at own
      rw [marked.head_of_not_preferred (before.ranked ranked rest valid) inside own, kept]

end

theorem unvalidated (member : entry ∈ db'.index.entries) (flag : entry.validated = false) :
    entry ∈ db.index.entries := by
  induction all with
  | nil => exact member
  | cons _ marked ih =>
    obtain ⟨before, beforeMem, same, validated⟩ := (marked.entries entry).mp member
    rw [flag] at validated
    obtain ⟨beforeFlag, -⟩ := Bool.or_eq_false_iff.mp validated.symm
    have isEntry : before = entry := ForkEntry.ext same (beforeFlag.trans flag.symm)
    rw [isEntry] at beforeMem
    exact ih beforeMem

theorem head_of_valid (tree : db.Tree) (found : ∀ block ∈ blocks, db.getBlock block.id = some block)
    (valid : ∀ block ∈ blocks, db.isValid block.id = true) : db'.head = db.head := by
  induction all with
  | nil => rfl
  | @cons older middle _ block before marked ih =>
    obtain ⟨-, olderFound⟩ := forall_mem_cons.mp found
    obtain ⟨own, olderValid⟩ := forall_mem_cons.mp valid
    rw [marked.head_of_valid ((before.isValid_iff tree olderFound).mpr (.inl own))]
    exact ih olderFound olderValid

end

/-- A branch that ends in a block preferred to the head, and to the other blocks of
the branch, makes it the head. -/
theorem head_eq (all : MarkedAll db (block :: blocks) db') (ranked : db.Ranked)
    (path : blockLinkage.Path db.getBlock block.id (block :: blocks) top)
    (valid : db.isValid top = true) (preferred : firstPreferred block db.head)
    (toOthers : ∀ older ∈ blocks, firstPreferred block older) : db'.head = block := by
  cases all with
  | @cons _ middle _ _ before marked =>
    cases path with
    | cons found rest =>
      refine marked.head_eq (before.ranked ranked rest valid) (by rw [before.getBlock_eq, found]) ?_
      rcases before.head_cases ranked rest valid with kept | moved
      · rw [kept]
        exact preferred
      · exact toOthers _ moved

end MarkedAll

/-- The head that is left when blocks (newest first) become valid, the oldest one first. -/
def leader (head : BlockState) : List BlockState → BlockState
  | [] => head
  | block :: older =>
    if firstPreferred block (leader head older) then block else leader head older

theorem MarkedAll.head_eq_leader {blocks : List BlockState} (all : MarkedAll db blocks db')
    (ranked : db.Ranked) (path : blockLinkage.Path db.getBlock id blocks top)
    (valid : db.isValid top = true) : db'.head = leader db.head blocks := by
  induction all generalizing id with
  | nil => rfl
  | @cons older middle _ block before marked ih =>
    cases path with
    | cons found rest =>
      have own : middle.getBlock block.id = some block := by
        rw [before.getBlock_eq, (getBlock_eq_some.mp found).1, found]
      have middleRanked := before.ranked ranked rest valid
      unfold leader
      rw [← ih rest]
      split_ifs with preferred
      · exact marked.head_eq middleRanked own preferred
      · exact marked.head_of_not_preferred middleRanked own preferred

/-! ### `pending_head` -/

theorem beginUnvalidated_spec {index : ForkIndex} {first : ForkEntry}
    (found : index.beginUnvalidated = some first) :
    ⟨first.block, false⟩ ∈ index.entries ∧ ∀ entry ∈ index.entries, entry.validated = false →
      ¬ firstPreferred entry.block first.block := by
  obtain ⟨member, flag⟩ := mem_filter.mp (firstBy_mem found)
  have unvalidated : first.validated = false := by simpa using flag
  have first_not_precedes : ∀ entry ∈ index.entries.filter (·.validated = false),
      ¬ entry.precedes first :=
    firstBy_not_precedes ForkEntry.precedes_asymm ForkEntry.not_precedes_trans found
  refine ⟨?_, fun entry entryMem entryFlag preferred => ?_⟩
  · rwa [← unvalidated]
  · refine first_not_precedes entry (mem_filter.mpr ⟨entryMem, by simpa using entryFlag⟩)
      (.inr ⟨?_, .inl preferred⟩)
    rw [entryFlag, unvalidated]

/-- `pending_head` is the head, or a block that is not validated and is preferred to
the head. No block that is not validated is preferred to it. -/
theorem pendingHead_cases (db : ForkDatabase) :
    (db.pendingHead = db.head ∨
        ⟨db.pendingHead, false⟩ ∈ db.index.entries ∧ firstPreferred db.pendingHead db.head) ∧
      ∀ entry ∈ db.index.entries, entry.validated = false →
        ¬ firstPreferred entry.block db.pendingHead := by
  unfold pendingHead
  cases found : db.index.beginUnvalidated with
  | none =>
    refine ⟨.inl rfl, fun entry member unvalidated => ?_⟩
    have empty := firstBy_eq_none.mp found
    have inside : entry ∈ db.index.entries.filter (·.validated = false) :=
      mem_filter.mpr ⟨member, by simpa using unvalidated⟩
    rw [empty] at inside
    cases inside
  | some first =>
    obtain ⟨member, notPreferred⟩ := beginUnvalidated_spec found
    dsimp only
    split_ifs with preferred
    · exact ⟨.inr ⟨member, preferred⟩, notPreferred⟩
    · exact ⟨.inl rfl, fun entry entryMem unvalidated =>
        not_firstPreferred_trans (notPreferred entry entryMem unvalidated) preferred⟩

theorem Ranked.has_pendingHead (ranked : db.Ranked) : db.Has db.pendingHead := by
  rcases db.pendingHead_cases.1 with same | ⟨member, -⟩
  · rw [same]
    exact ranked.headHas
  · exact .inr (getBlock_of_mem member)

/-- A pending head that is not validated is preferred to every other block. -/
theorem Ranked.pendingHead_preferred (ranked : db.Ranked) (preferred : firstPreferred db.pendingHead db.head)
    (found : db.getBlock block.id = some block) (below : block.blockNum < db.pendingHead.blockNum) :
    firstPreferred db.pendingHead block := by
  obtain ⟨-, entry, member, rfl⟩ := getBlock_eq_some.mp found
  have notPreferred : ¬ firstPreferred entry.block db.pendingHead := by
    cases flag : entry.validated with
    | false => exact db.pendingHead_cases.2 entry member flag
    | true =>
      exact not_firstPreferred_trans (ranked.best entry member flag) (firstPreferred_asymm preferred)
  unfold firstPreferred at *
  omega

end ForkDatabase

end CodexRelay.Chain
