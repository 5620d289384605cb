import CodexRelay.Chain.ForkDatabase.Guarantees
import CodexRelay.Chain.HeaderState.Irreversibility

/-!
Contract: the file of the fork database.

Owns:
- `close` and `open` of `fork_database.cpp`, over the values that are packed;
- the order in which `close` writes the blocks;
- that `open` restores what `close` wrote exactly when no block has a lower LIB than its
  parent;
- `Carries`, which relates a block of the fork database to its header state, and the fork
  database over a branch on which the LIB moves backwards, which `open` rejects.

Does not own: `fc::raw::pack` and `unpack`, the file itself, and the transactions that
`open` extracts from the blocks.
-/

namespace CodexRelay.Chain

open Library List

variable {root prev : BlockState} {known blocks : List ForkEntry} {n : ForkEntry}
  {loaded : ForkDatabase}

/-! ### `close` -/

def ForkEntry.notAfter (first second : ForkEntry) : Prop := ¬ second.precedes first

instance : DecidableRel ForkEntry.notAfter := fun _ _ => inferInstanceAs (Decidable (¬ _))

instance : Std.Total ForkEntry.notAfter where
  total first second := by
    unfold ForkEntry.notAfter
    by_cases before : second.precedes first
    · exact .inr (ForkEntry.precedes_asymm before)
    · exact .inl before

instance : IsTrans ForkEntry ForkEntry.notAfter where
  trans _ _ _ first second := ForkEntry.not_precedes_trans second first

def ForkIndex.byLibBlockNum (index : ForkIndex) : List ForkEntry :=
  index.entries.insertionSort ForkEntry.notAfter

/-- `insert` of a block that comes with its flag; `none` when the id is taken. -/
def ForkIndex.insertEntry (index : ForkIndex) (n : ForkEntry) : Option ForkIndex :=
  if fresh : n.block.id ∈ index.entries.map (·.block.id) then none
  else some ⟨n :: index.entries, nodup_cons.mpr ⟨fresh, index.unique⟩⟩

structure ForkFile where
  totem : Nat
  version : Nat
  root : BlockState
  blocks : List ForkEntry
  headId : BlockId

namespace ForkDatabase

def magicNumber : Nat := 0x30510FDB

def minSupportedVersion : Nat := 1

def maxSupportedVersion : Nat := 1

/-- The loop of `close`: both the unvalidated and the validated blocks are written from the
last to the first. Of the next two, the validated one is written, unless it is preferred to
the other. -/
def writtenBlocks (index : ForkIndex) : List ForkEntry :=
  (index.byLibBlockNum.filter (·.validated = true)).reverse.merge
    (index.byLibBlockNum.filter (·.validated = false)).reverse
    fun validated unvalidated => ¬ firstPreferred validated.block unvalidated.block

/-- `close`, of a database that has a root. -/
def close (db : ForkDatabase) : ForkFile where
  totem := magicNumber
  version := maxSupportedVersion
  root := db.root
  blocks := writtenBlocks db.index
  headId := db.head.id

/-! ### `open` -/

/-- The callback that checks the protocol features which a block activates on its previous
block. -/
abbrev BlockValidator := (prev n : BlockState) → Checked Unit

/-- The end of `fork_database_impl::add`: a validated first block becomes the head. -/
def afterInsert (db : ForkDatabase) (index : ForkIndex) : ForkDatabase :=
  match index.begin with
  | some ⟨candidate, true⟩ => { db with index, head := candidate }
  | _ => { db with index }

/-- `fork_database_impl::add` with `validate`, of a block that comes with its flag. -/
def addLoaded (validator : BlockValidator) (n : ForkEntry) : ForkDatabaseM Unit := do
  let db ← get
  match db.getBlockHeader n.block.previous with
  | none => throw ⟨.unlinkableBlockException, "unlinkable block"⟩
  | some prev =>
    match validator prev n.block with
    | .error _ => throw ⟨.forkDatabaseException,
        "serialized fork database is incompatible with configured protocol features"⟩
    | .ok _ =>
      match db.index.insertEntry n with
      | none => throw ⟨.forkDatabaseException, "duplicate block added"⟩
      | some index => set (db.afterInsert index)

def loadHead (db : ForkDatabase) (headId : BlockId) : Checked BlockState :=
  if db.root.id = headId then .ok db.root
  else match db.getBlock headId with
    | some head => .ok head
    | none => .error ⟨.forkDatabaseException, "could not find head while reconstructing fork database from file; '${filename}' is likely corrupted"⟩

def checkHead (db : ForkDatabase) : Checked Unit :=
  match db.index.begin with
  | some ⟨candidate, true⟩ =>
    eosAssert (¬ firstPreferred candidate db.head) .forkDatabaseException
      "head not set to best available option available; '${filename}' is likely corrupted"
  | _ =>
    eosAssert (db.head.id = db.root.id) .forkDatabaseException
      "head not set to root despite no better option available; '${filename}' is likely corrupted"

def checkVersion (file : ForkFile) : Checked Unit := do
  eosAssert (file.totem = magicNumber) .forkDatabaseException
    "Fork database file '${filename}' has unexpected magic number: ${actual_totem}. Expected ${expected_totem}"
  eosAssert (minSupportedVersion ≤ file.version ∧ file.version ≤ maxSupportedVersion)
    .forkDatabaseException
    "Unsupported version of fork database file '${filename}'. Fork database version is ${version} while code supports version(s) [${min},${max}]"

/-- `open`, of a file that exists. -/
def openFile (validator : BlockValidator) (file : ForkFile) : ForkDatabaseM Unit := do
  match checkVersion file with
  | .error thrown => throw thrown
  | .ok _ =>
    reset file.root
    file.blocks.forM (addLoaded validator)
    let db ← get
    match db.loadHead file.headId with
    | .error thrown => throw thrown
    | .ok head =>
      set { db with head }
      match checkHead { db with head } with
      | .error thrown => throw thrown
      | .ok _ => return ()

end ForkDatabase

/-! ### The order of the blocks in the file -/

namespace ForkIndex

variable {index : ForkIndex}

/-- The blocks with one flag, from the last to the first, rise in preference. -/
theorem rising_of_flag (flag : Bool) :
    (index.byLibBlockNum.filter (·.validated = flag)).reverse.Pairwise
      fun first second => ¬ firstPreferred first.block second.block := by
  rw [pairwise_reverse]
  refine ((pairwise_insertionSort ForkEntry.notAfter _).filter _).imp_of_mem ?_
  intro second first secondMem firstMem ordered preferred
  have secondFlag : second.validated = flag := by simpa using (mem_filter.mp secondMem).2
  have firstFlag : first.validated = flag := by simpa using (mem_filter.mp firstMem).2
  exact ordered (.inr ⟨firstFlag.trans secondFlag.symm, .inl preferred⟩)

end ForkIndex

namespace ForkDatabase

variable {db db' : ForkDatabase} {index : ForkIndex} {entry : ForkEntry} {validator : BlockValidator}

theorem writtenBlocks_perm (index : ForkIndex) : (writtenBlocks index).Perm index.entries := by
  refine (merge_perm_append _).trans ?_
  refine ((reverse_perm _).append (reverse_perm _)).trans ?_
  have parts := filter_append_perm (fun entry : ForkEntry => decide (entry.validated = true))
    index.byLibBlockNum
  refine List.Perm.trans ?_ (parts.trans (perm_insertionSort _ _))
  refine (List.Perm.refl _).append (.of_eq (filter_congr fun entry _ => ?_))
  cases entry.validated <;> rfl

theorem writtenBlocks_pairwise (index : ForkIndex) :
    (writtenBlocks index).Pairwise fun first second => ¬ firstPreferred first.block second.block := by
  have rising : ∀ flag, (index.byLibBlockNum.filter (·.validated = flag)).reverse.Pairwise
      fun first second => decide (¬ firstPreferred first.block second.block) = true :=
    fun flag => (ForkIndex.rising_of_flag flag).imp decide_eq_true
  refine (pairwise_merge ?_ ?_ _ _ (rising true) (rising false)).imp of_decide_eq_true
  · intro first second third notPreferred next
    exact decide_eq_true
      (not_firstPreferred_trans (of_decide_eq_true notPreferred) (of_decide_eq_true next))
  · intro first second
    by_cases preferred : firstPreferred first.block second.block
    · simp [firstPreferred_asymm preferred]
    · simp [preferred]

def LibRises (db : ForkDatabase) : Prop :=
  ∀ child ∈ db.index.entries, ∀ parent ∈ db.index.entries,
    child.block.previous = parent.block.id →
      parent.block.dposIrreversibleBlocknum ≤ child.block.dposIrreversibleBlocknum

instance : DecidablePred LibRises := fun _ => inferInstanceAs (Decidable (∀ _ ∈ _, _))

/-- The block's previous block is the root or among the known ones. -/
def Links (root : BlockState) (known : List ForkEntry) (n : ForkEntry) : Prop :=
  n.block.previous = root.id ∨ ∃ parent ∈ known, parent.block.id = n.block.previous

/-- Blocks that can be added one by one, each to those known and those before it. -/
def Linkable (root : BlockState) : (known blocks : List ForkEntry) → Prop
  | _, [] => True
  | known, n :: blocks => Links root known n ∧ Linkable root (n :: known) blocks

theorem Linkable.links {before after : List ForkEntry}
    (linkable : Linkable root known (before ++ n :: after)) : Links root (before ++ known) n := by
  induction before generalizing known with
  | nil => exact linkable.1
  | cons first before ih =>
    rcases ih linkable.2 with toRoot | ⟨parent, member, same⟩
    · exact .inl toRoot
    · refine .inr ⟨parent, ?_, same⟩
      simp only [mem_append, mem_cons, cons_append] at member ⊢
      tauto

theorem linkable_of_links
    (links : ∀ before n after, blocks = before ++ n :: after → Links root (before ++ known) n) :
    Linkable root known blocks := by
  induction blocks generalizing known with
  | nil => trivial
  | cons first blocks ih =>
    refine ⟨links [] first blocks rfl, ih fun before n after split => ?_⟩
    rcases links (first :: before) n after (by rw [split]; rfl) with
      toRoot | ⟨parent, member, same⟩
    · exact .inl toRoot
    · refine .inr ⟨parent, ?_, same⟩
      simp only [mem_append, mem_cons, cons_append] at member ⊢
      tauto

/-- Written in rising preference, a block comes after its parent exactly when it does not
have the lower LIB. -/
theorem Tree.linkable_writtenBlocks_iff (tree : db.Tree) :
    Linkable db.root [] (writtenBlocks db.index) ↔ db.LibRises := by
  have written : ∀ {entry}, entry ∈ writtenBlocks db.index ↔ entry ∈ db.index.entries :=
    (writtenBlocks_perm db.index).mem_iff
  have rising := writtenBlocks_pairwise db.index
  constructor
  · intro linkable child childMem parent parentMem isParent
    obtain ⟨before, after, split⟩ := append_of_mem (written.mpr childMem)
    rw [split] at linkable rising
    rcases linkable.links with toRoot | ⟨other, otherMem, same⟩
    · have absent := tree.getBlock_root
      rw [← toRoot, isParent, getBlock_of_mem parentMem] at absent
      cases absent
    · rw [append_nil] at otherMem
      have otherIn : other ∈ db.index.entries := written.mp (split ▸ mem_append_left _ otherMem)
      obtain rfl := ForkIndex.eq_of_id otherIn parentMem (same.trans isParent)
      have notPreferred := (pairwise_append.mp rising).2.2 other otherMem child mem_cons_self
      unfold firstPreferred at notPreferred
      omega
  · intro rises
    refine linkable_of_links fun before n after split => ?_
    have nMem : n ∈ db.index.entries := written.mp (by rw [split]; simp)
    refine (tree.linked n nMem).imp id fun inside => ?_
    obtain ⟨block, found⟩ := Option.ne_none_iff_exists'.mp inside
    obtain ⟨same, parent, parentMem, rfl⟩ := getBlock_eq_some.mp found
    have lib := rises n nMem parent parentMem same.symm
    have number := num_of_previous same
    have preferred : firstPreferred n.block parent.block := by
      unfold firstPreferred
      omega
    refine ⟨parent, ?_, same⟩
    rw [append_nil]
    have position := written.mpr parentMem
    rw [split] at position rising
    rcases mem_append.mp position with earlier | later
    · exact earlier
    · rcases mem_cons.mp later with rfl | after
      · omega
      · have follows := (pairwise_append.mp rising).2.1
        exact absurd preferred (rel_of_pairwise_cons follows after)

/-! ### Reading the blocks -/

theorem afterInsert_root : (db.afterInsert index).root = db.root := by
  unfold afterInsert
  split <;> rfl

theorem afterInsert_index : (db.afterInsert index).index = index := by
  unfold afterInsert
  split <;> rfl

theorem links_of_getBlockHeader (found : db.getBlockHeader n.block.previous = some prev) :
    Links db.root db.index.entries n := by
  unfold getBlockHeader at found
  split at found
  case isTrue same => exact .inl same.symm
  case isFalse =>
    obtain ⟨same, parent, member, rfl⟩ := getBlock_eq_some.mp found
    exact .inr ⟨parent, member, same⟩

theorem exists_getBlockHeader (links : Links db.root db.index.entries n) :
    ∃ prev, db.getBlockHeader n.block.previous = some prev := by
  unfold getBlockHeader
  split
  case isTrue => exact ⟨_, rfl⟩
  case isFalse notRoot =>
    rcases links with toRoot | ⟨parent, member, same⟩
    · exact absurd toRoot.symm notRoot
    · exact ⟨parent.block, getBlock_eq_some.mpr ⟨same, parent, member, rfl⟩⟩

theorem addLoaded_of_ok (ran : addLoaded validator n db = .ok () db') :
    Links db.root db.index.entries n ∧ db'.root = db.root ∧
      db'.index.entries = n :: db.index.entries := by
  unfold addLoaded at ran
  rw [get_bind] at ran
  cases found : db.getBlockHeader n.block.previous with
  | none =>
    rw [found] at ran
    cases ran
  | some prev =>
    rw [found] at ran
    dsimp only at ran
    cases checked : validator prev n.block with
    | error =>
      rw [checked] at ran
      cases ran
    | ok =>
      rw [checked] at ran
      by_cases known : n.block.id ∈ db.index.entries.map (·.block.id)
      · unfold ForkIndex.insertEntry at ran
        rw [dif_pos known] at ran
        cases ran
      · unfold ForkIndex.insertEntry at ran
        rw [dif_neg known] at ran
        obtain ⟨-, rfl⟩ := EStateM.Result.ok.inj ran
        exact ⟨links_of_getBlockHeader found, afterInsert_root,
          congrArg ForkIndex.entries afterInsert_index⟩

theorem addLoaded_spec (found : db.getBlockHeader n.block.previous = some prev)
    (accepted : validator prev n.block = .ok ())
    (fresh : n.block.id ∉ db.index.entries.map (·.block.id)) :
    ∃ db', addLoaded validator n db = .ok () db' ∧ db'.root = db.root ∧
      db'.index.entries = n :: db.index.entries := by
  let index : ForkIndex := ⟨n :: db.index.entries, nodup_cons.mpr ⟨fresh, db.index.unique⟩⟩
  refine ⟨db.afterInsert index, ?_, afterInsert_root, congrArg ForkIndex.entries afterInsert_index⟩
  unfold addLoaded ForkIndex.insertEntry
  rw [get_bind, found]
  dsimp only
  rw [accepted, dif_neg fresh]
  rfl

theorem forM_addLoaded_of_ok (ran : blocks.forM (addLoaded validator) db = .ok () db') :
    Linkable db.root db.index.entries blocks := by
  induction blocks generalizing db with
  | nil => trivial
  | cons n blocks ih =>
    rw [forM_cons] at ran
    obtain ⟨_, added, first, rest⟩ := of_bind_ok ran
    obtain ⟨links, root, entries⟩ := addLoaded_of_ok first
    have linkable := ih rest
    rw [root, entries] at linkable
    exact ⟨links, linkable⟩

/-- The callback has no objection to the blocks, as it had none when they were built. -/
def Accepts (db : ForkDatabase) (validator : BlockValidator) : Prop :=
  ∀ entry ∈ db.index.entries, ∀ prev, db.getBlockHeader entry.block.previous = some prev →
    validator prev entry.block = .ok ()

theorem getBlockHeader_of_subset {id : BlockId} {block : BlockState} (root : loaded.root = db.root)
    (subset : ∀ entry ∈ loaded.index.entries, entry ∈ db.index.entries)
    (found : loaded.getBlockHeader id = some block) : db.getBlockHeader id = some block := by
  unfold getBlockHeader at found ⊢
  rw [root] at found
  split at found
  case isTrue same => rw [if_pos same, found]
  case isFalse notRoot =>
    obtain ⟨same, entry, member, isBlock⟩ := getBlock_eq_some.mp found
    rw [if_neg notRoot]
    exact getBlock_eq_some.mpr ⟨same, entry, subset entry member, isBlock⟩

theorem forM_addLoaded_spec {loaded : ForkDatabase} {blocks : List ForkEntry}
    (accepts : db.Accepts validator) (root : loaded.root = db.root)
    (parts : (blocks ++ loaded.index.entries).Perm db.index.entries)
    (linkable : Linkable db.root loaded.index.entries blocks) :
    ∃ loaded', blocks.forM (addLoaded validator) loaded = .ok () loaded' ∧
      loaded'.root = db.root ∧ loaded'.index.entries.Perm db.index.entries := by
  induction blocks generalizing loaded with
  | nil => exact ⟨loaded, rfl, root, parts⟩
  | cons n blocks ih =>
    obtain ⟨links, rest⟩ := linkable
    have fresh : n.block.id ∉ loaded.index.entries.map (·.block.id) := by
      have unique := (parts.map (·.block.id)).nodup_iff.mpr db.index.unique
      rw [cons_append, map_cons, nodup_cons, map_append] at unique
      exact fun known => unique.1 (mem_append_right _ known)
    rw [← root] at links
    obtain ⟨prev, found⟩ := exists_getBlockHeader links
    have inDb : db.getBlockHeader n.block.previous = some prev := getBlockHeader_of_subset root
        (fun entry member => parts.subset (mem_append_right _ member)) found
    have accepted := accepts n (parts.subset mem_cons_self) prev inDb
    obtain ⟨added, ran, addedRoot, entries⟩ := addLoaded_spec found accepted fresh
    rw [← entries] at rest
    obtain ⟨loaded', ran', restored⟩ := ih (addedRoot.trans root)
      (by rw [entries]; exact perm_middle.trans parts) rest
    refine ⟨loaded', ?_, restored⟩
    rw [forM_cons, bind_of_ok ran]
    exact ran'

/-! ### Restoring the database -/

structure Restores (db restored : ForkDatabase) : Prop where
  root : restored.root = db.root
  blocks : ∀ entry, entry ∈ restored.index.entries ↔ entry ∈ db.index.entries
  head : restored.head = db.head

theorem Sound.loadHead_eq (sound : db.Sound) (root : loaded.root = db.root)
    (blocks : ∀ entry, entry ∈ loaded.index.entries ↔ entry ∈ db.index.entries) :
    loaded.loadHead db.head.id = .ok db.head := by
  unfold loadHead
  rw [root]
  rcases sound.headHas with isRoot | found
  · rw [if_pos (congrArg BlockState.id isRoot.symm), isRoot]
  · rw [if_neg]
    · obtain ⟨-, entry, member, isHead⟩ := getBlock_eq_some.mp found
      have inLoaded := getBlock_of_mem ((blocks entry).mpr member)
      rw [isHead] at inLoaded
      rw [inLoaded]
    · intro same
      rw [← same, sound.tree.getBlock_root] at found
      cases found

theorem TreeInvariant.checkHead_eq (invariant : db.TreeInvariant) : db.checkHead = .ok () := by
  unfold checkHead
  split
  case h_1 candidate isFirst =>
    exact eosAssert_eq_ok.mpr (invariant.best _ (ForkIndex.begin_mem isFirst) rfl)
  case h_2 noneValidated =>
    refine eosAssert_eq_ok.mpr ?_
    rcases invariant.head with isRoot | headMem
    · rw [isRoot]
    · obtain ⟨⟨first, validated⟩, isFirst⟩ := ForkIndex.begin_isSome headMem
      obtain rfl : validated = true := (ForkIndex.begin_validated isFirst headMem rfl).1
      exact absurd isFirst (noneValidated first)

theorem TreeInvariant.restored (invariant : db.TreeInvariant) (restores : Restores db db') :
    db'.TreeInvariant where
  linked := by
    intro entry member
    rw [restores.root]
    refine (invariant.linked entry ((restores.blocks entry).mp member)).imp_right ?_
    rintro ⟨parent, parentMem, isParent⟩
    exact ⟨parent, (restores.blocks parent).mpr parentMem, isParent⟩
  head := by
    rw [restores.root, restores.head]
    exact invariant.head.imp_right (restores.blocks _).mpr
  best := by
    intro entry member
    rw [restores.head]
    exact invariant.best entry ((restores.blocks entry).mp member)

theorem checkVersion_close (db : ForkDatabase) : checkVersion db.close = .ok () :=
  sequence_eq_ok.mpr ⟨(), eosAssert_eq_ok.mpr rfl, eosAssert_eq_ok.mpr ⟨le_rfl, le_rfl⟩⟩

/-- A file that `close` wrote and `open` reads: its blocks are linkable. -/
theorem linkable_of_openFile {start : ForkDatabase}
    (ran : openFile validator db.close start = .ok () db') :
    Linkable db.root [] (writtenBlocks db.index) := by
  unfold openFile at ran
  rw [checkVersion_close] at ran
  obtain ⟨_, cleared, begun, ran⟩ := of_bind_ok ran
  obtain ⟨_, loaded, read, -⟩ := of_bind_ok ran
  obtain ⟨-, rfl⟩ := EStateM.Result.ok.inj begun
  exact forM_addLoaded_of_ok read

theorem Sound.openFile_spec (sound : db.Sound) (accepts : db.Accepts validator)
    (linkable : Linkable db.root [] (writtenBlocks db.index)) (start : ForkDatabase) :
    ∃ restored, openFile validator db.close start = .ok () restored ∧ Restores db restored := by
  let cleared : ForkDatabase := ⟨⟨[], nodup_nil⟩, db.root, db.root⟩
  obtain ⟨loaded, read, root, parts⟩ := @forM_addLoaded_spec _ _ cleared _ accepts rfl
    (by rw [append_nil]; exact writtenBlocks_perm db.index) linkable
  have restores : Restores db { loaded with head := db.head } := ⟨root, fun _ => parts.mem_iff, rfl⟩
  refine ⟨{ loaded with head := db.head }, ?_, restores⟩
  unfold openFile
  rw [checkVersion_close]
  refine (bind_of_ok rfl).trans ((bind_of_ok read).trans ?_)
  rw [get_bind, show db.close.headId = db.head.id from rfl,
    sound.loadHead_eq root fun _ => parts.mem_iff]
  dsimp only
  rw [set_bind, (sound.treeInvariant.restored restores).checkHead_eq]
  rfl

/-- **Persistence**: after every run of calls that return, `open` restores what `close` wrote
exactly when no block has a lower LIB than its parent. -/
theorem restores_iff_libRises {start last : ForkDatabase} {visited : List ForkDatabase}
    {rootBhs : BlockState} (begins : reset rootBhs db = .ok () start)
    (run : Run Step start visited last) (accepts : last.Accepts validator) (opened : ForkDatabase) :
    (∃ restored, openFile validator last.close opened = .ok () restored ∧ Restores last restored) ↔
      last.LibRises := by
  have sound := Sound.of_run begins run
  rw [← sound.tree.linkable_writtenBlocks_iff]
  constructor
  · rintro ⟨restored, ran, -⟩
    exact linkable_of_openFile ran
  · intro linkable
    exact sound.openFile_spec accepts linkable opened

def siblingChild : BlockState :=
  ⟨thirdBlock.id, siblingBlock.id, 3, 0, thirdBlock.idNum, by decide, thirdBlock.libBelow⟩

def siblingGrandchild : BlockState :=
  ⟨endianReverseU32 4 * 2 ^ 192, siblingChild.id, 4, 1, by decide, by decide, by decide⟩

/-- The second block is the head until the branch of `siblingChild` is validated. -/
def forkOperations : List Operation :=
  [.add secondBlock false, .markValid secondBlock, .add siblingBlock false,
    .add siblingChild false, .markValid siblingBlock, .markValid siblingChild,
    .add siblingGrandchild false]

def forkedDb : ForkDatabase where
  index := ⟨[⟨siblingGrandchild, false⟩, ⟨siblingChild, true⟩, ⟨siblingBlock, true⟩,
    ⟨secondBlock, true⟩], by decide⟩
  root := firstBlock
  head := siblingChild

/-- Both branches of a fork are restored, with the block that is not validated. -/
theorem restores_forkedDb : ∃ restored,
    openFile (fun _ _ => .ok ()) forkedDb.close (withSecond false) = .ok () restored ∧
      Restores forkedDb restored := by
  have begins : reset firstBlock (withSecond true) =
      .ok () ⟨⟨[], nodup_nil⟩, firstBlock, firstBlock⟩ := rfl
  have ran : forkOperations.forM Operation.run ⟨⟨[], nodup_nil⟩, firstBlock, firstBlock⟩ =
      .ok () forkedDb := by
    decide +kernel
  have steps : ∀ operation ∈ forkOperations, ∀ db db', operation.run db = .ok () db' → Step db db' :=
    fun operation _ _ _ taken => ⟨operation, taken⟩
  obtain ⟨_, run⟩ := run_of_operations steps .refl ran
  exact (restores_iff_libRises begins run (fun _ _ _ _ => rfl) (withSecond false)).mpr (by decide)

end ForkDatabase

/-! ### Header states of the blocks -/

variable {fc : Primitives} {genesis : GenesisState}

@[mk_iff]
structure BlockState.Carries (block : BlockState) (state : BlockHeaderState) : Prop where
  id : block.id = state.id
  previous : block.previous = state.header.previous
  blockNum : block.blockNum = state.blockNum
  lib : block.dposIrreversibleBlocknum = state.dposIrreversibleBlocknum

/-- `next` built the block, on a branch from this genesis. -/
def BlockState.Built (fc : Primitives) (genesis : GenesisState) (block : BlockState) : Prop :=
  ∃ visited state, Run (Extends fc) (genesis.headerState fc) visited state ∧ block.Carries state

namespace ForkDatabase

def Operation.Built (fc : Primitives) (genesis : GenesisState) : Operation → Prop
  | .reset rootBhs => rootBhs.Built fc genesis
  | .add n _ => n.Built fc genesis
  | .markValid h => h.Built fc genesis
  | _ => True

def BuiltStep (fc : Primitives) (genesis : GenesisState) (db db' : ForkDatabase) : Prop :=
  ∃ operation : Operation, operation.Built fc genesis ∧ operation.run db = .ok () db'

theorem BuiltStep.step (db db' : ForkDatabase) (built : BuiltStep fc genesis db db') :
    Step db db' :=
  let ⟨operation, _, ran⟩ := built
  ⟨operation, ran⟩

instance (block : BlockState) (state : BlockHeaderState) : Decidable (block.Carries state) :=
  decidable_of_iff' _ (block.carries_iff state)

def unhashedBlock (num : Nat) (lib : Fin num) (width : num < 2 ^ 32) : BlockState where
  id := unhashedId num
  previous := unhashedId (num - 1)
  blockNum := num
  dposIrreversibleBlocknum := lib
  idNum := numFromId_unhashedId width
  previousNum := by
    rw [numFromId_unhashedId (by omega)]
    have positive := lib.pos
    omega
  libBelow := lib.isLt

def laggardRoot : BlockState := unhashedBlock 3 0 (by decide)

def laggardBlocks : List BlockState :=
  [unhashedBlock 4 0 (by decide), unhashedBlock 5 0 (by decide),
    unhashedBlock 6 0 (by decide), unhashedBlock 7 2 (by decide),
    unhashedBlock 8 3 (by decide), unhashedBlock 9 0 (by decide)]

/-- The database over block 3 with some of these blocks. -/
def laggardDb (blocks : List BlockState) : ForkDatabase :=
  finalState ((blocks.map (Operation.add · false)).forM Operation.run
    ⟨⟨[], nodup_nil⟩, laggardRoot, laggardRoot⟩)

theorem laggardBlocks_built :
    ∀ block ∈ laggardRoot :: laggardBlocks, block.Built .zero fourProducerGenesis := by
  intro block member
  have carried : ∀ block ∈ laggardRoot :: laggardBlocks,
      ∃ state ∈ (fourProducerGenesis.headerState .zero).makeBranch .zero laggardInputs,
        block.Carries state := by
    decide +kernel
  obtain ⟨state, onBranch, carries⟩ := carried block member
  obtain ⟨visited, run⟩ := laggardInputs_allowed.run.of_mem (mem_append_left _ onBranch)
  exact ⟨visited, state, run, carries⟩

theorem laggardDb_run : ∃ visited,
    Run (BuiltStep .zero fourProducerGenesis) (laggardDb []) visited (laggardDb laggardBlocks) := by
  have ran : (laggardBlocks.map (Operation.add · false)).forM Operation.run (laggardDb []) =
      .ok () (laggardDb laggardBlocks) := by
    decide +kernel
  refine run_of_operations (fun operation member _ _ added => ⟨operation, ?_, added⟩) .refl ran
  obtain ⟨block, listed, rfl⟩ := mem_map.mp member
  exact laggardBlocks_built block (mem_cons_of_mem _ listed)

/-- Block 9, whose LIB is below that of its parent, is written first, so that `open` cannot link
it. -/
theorem openFile_rejects_laggards :
    ∃ start last visited, reset laggardRoot start = .ok () start ∧
      laggardRoot.Built .zero fourProducerGenesis ∧
      Run (BuiltStep .zero fourProducerGenesis) start visited last ∧
      last.Accepts (fun _ _ => .ok ()) ∧
      ¬ ∃ restored, openFile (fun _ _ => .ok ()) last.close start = .ok () restored := by
  obtain ⟨visited, run⟩ := laggardDb_run
  refine ⟨laggardDb [], laggardDb laggardBlocks, visited, rfl,
    laggardBlocks_built _ mem_cons_self, run, fun _ _ _ _ => rfl, ?_⟩
  rintro ⟨restored, ran⟩
  have sound := Sound.of_run (rfl : reset laggardRoot (laggardDb []) = _) (run.mono BuiltStep.step)
  have rises := sound.tree.linkable_writtenBlocks_iff.mp (linkable_of_openFile ran)
  revert rises
  decide +kernel

end ForkDatabase

end CodexRelay.Chain
