import CodexRelay.Chain.Controller.Synced

/-!
Contract: `maybe_switch_forks`.

Owns:
- the two branches of a switch and its state after the old branch was popped;
- `firstThrow`, which block of the new branch throws, as a function of the chain
  state;
- the error path: what it restores, and exactly when.

Does not own: `log_irreversible`, which follows a successful switch.
-/

namespace CodexRelay.Chain

open Library List ForkDatabase BlockHeader

variable {other : BlockState} {thrown : ChainException}

namespace ControllerM

variable {χ : Type} {env : Environment χ} {s : ControllerState χ} {block common newHead : BlockState}
  {newBranch oldBranch : List BlockState}

/-! ### The two branches -/

/-- The branches from the new head and from the head meet at `common`. -/
structure Forks (s : ControllerState χ) (newHead : BlockState)
    (newBranch oldBranch : List BlockState) (common : BlockState) : Prop where
  fetched : s.forkDb.fetchBranchFrom newHead.id s.head.id = .ok (newBranch, oldBranch)
  newPath : blockLinkage.Path s.forkDb.getBlock newHead.id newBranch common.id
  oldPath : blockLinkage.Path s.forkDb.getBlock s.head.id oldBranch common.id
  has : s.forkDb.Has common
  empty : oldBranch = [] ↔ Reach s.forkDb.index s.head.id newHead.id

theorem Synced.forks (synced : Synced env s) (newHas : s.forkDb.Has newHead) :
    ∃ newBranch oldBranch common, Forks s newHead newBranch oldBranch common := by
  obtain ⟨newBranch, oldBranch, common, fetched, newPath, oldPath, has, empty, -⟩ :=
    synced.ranked.tree.fetchBranchFrom_spec newHas synced.headHas
  refine ⟨newBranch, oldBranch, common, fetched, newPath, oldPath, has, empty.trans ?_⟩
  exact ⟨fun ⟨_, path⟩ => reach_of_path path, path_of_reach⟩

theorem Synced.rewound_nil (synced : Synced env s) : rewound s s.head [] = s := by
  unfold rewound
  rw [← synced.stored]
  rfl

section

variable (forks : Forks s newHead newBranch oldBranch common)

include forks

/-- The oldest block of the old branch is built on the common block. -/
theorem Forks.joined {oldest : BlockState} (last : oldBranch.getLast? = some oldest) :
    common.id = oldest.previous := by
  have nonempty : oldBranch ≠ [] := by
    rintro rfl
    cases last
  have parent := forks.oldPath.getLast?_parent nonempty
  rw [getLast?_map, last] at parent
  exact (Option.some_inj.mp parent).symm

/-- A new head that is built directly on the head is a branch by itself. -/
theorem Forks.direct (found : s.forkDb.getBlock newHead.id = some newHead)
    (direct : newHead.previous = s.head.id) : newBranch = [newHead] ∧ oldBranch = [] := by
  have path : blockLinkage.Path s.forkDb.getBlock newHead.id [newHead] s.head.id :=
    .cons found (Linkage.Path.nil_iff.mpr direct)
  have isEmpty := forks.empty.mpr (reach_of_path path)
  have oldPath := forks.oldPath
  rw [isEmpty, Linkage.Path.nil_iff] at oldPath
  have newPath := forks.newPath
  rw [← oldPath] at newPath
  have length := path_num_eq newPath
  have level := num_of_previous direct.symm
  exact ⟨(newPath.unique path (by simp only [length_singleton]; omega)).1, isEmpty⟩

theorem Forks.ne_head (nonempty : newBranch ≠ []) : newHead.id ≠ s.head.id := by
  intro same
  have isEmpty : oldBranch = [] := forks.empty.mpr (by rw [same]; exact .self)
  have oldPath := forks.oldPath
  rw [isEmpty, Linkage.Path.nil_iff] at oldPath
  have newPath := forks.newPath
  rw [← oldPath] at newPath
  have length := path_num_eq newPath
  rw [← newHead.idNum, same, s.head.idNum] at length
  exact nonempty (eq_nil_of_length_eq_zero (by omega))

end

theorem Synced.switchForks_eq (synced : Synced env s)
    (forks : Forks s newHead newBranch oldBranch common) :
    switchForks env newHead s =
      applyBranch env oldBranch 0 newBranch.reverse (rewound s common oldBranch) := by
  unfold switchForks
  rw [get_bind, forks.fetched]
  dsimp only
  cases last : oldBranch.getLast? with
  | none =>
    have isEmpty : oldBranch = [] := getLast?_eq_none_iff.mp last
    subst isEmpty
    obtain rfl := synced.ranked.tree.has_unique synced.headHas forks.has
      (Linkage.Path.nil_iff.mp forks.oldPath)
    rw [synced.rewound_nil]
  | some oldest =>
    have joined : (rewound s common oldBranch).head.id = oldest.previous := forks.joined last
    dsimp only
    rw [bind_of_ok (synced.popBlocks_eq forks.has forks.oldPath), get_bind,
      bind_of_ok (assert_of_true joined)]

/-- The first block of a branch (oldest first) whose application throws. -/
def firstThrow (env : Environment χ) (status : BlockState → BlockStatus) :
    χ → List BlockState → Option (BlockState × ApplyThrow)
  | _, [] => none
  | state, block :: rest =>
    match applyOutcome env (status block) state block with
    | .error failure => some (block, failure)
    | .ok session => firstThrow env status session rest

section FirstThrow

variable {status : BlockState → BlockStatus} {state : χ} {blocks : List BlockState}

/-- Blocks that follow applied ones are applied as well, or the oldest that throws is found. -/
theorem applies_or_throws (rest : List BlockState) {done : List BlockState} {states : List χ}
    (applies : Applies env status state done states) :
    match firstThrow env status (states.headD state) rest with
    | none => ∃ states, Applies env status state (rest.reverse ++ done) states
    | some (block, failure) =>
      ∃ newer older states, rest.reverse ++ done = newer ++ block :: older ∧
        Applies env status state older states ∧
        applyOutcome env (status block) (states.headD state) block = .error failure := by
  induction rest generalizing done states with
  | nil => exact ⟨states, applies⟩
  | cons next rest ih =>
    unfold firstThrow
    rw [reverse_cons, append_assoc, singleton_append]
    cases outcome : applyOutcome env (status next) (states.headD state) next with
    | error thrown => exact ⟨rest.reverse, done, states, rfl, applies, outcome⟩
    | ok session => exact ih (applies.cons outcome)

theorem exists_of_firstThrow {failure : ApplyThrow}
    (throws : firstThrow env status state blocks.reverse = some (block, failure)) :
    ∃ newer older states, blocks = newer ++ block :: older ∧
      Applies env status state older states ∧
      applyOutcome env (status block) (states.headD state) block = .error failure := by
  simpa only [headD_nil, throws, reverse_reverse, append_nil] using
    applies_or_throws blocks.reverse (.nil : Applies env status state [] [])

theorem applies_of_firstThrow (returns : firstThrow env status state blocks.reverse = none) :
    ∃ states, Applies env status state blocks states := by
  simpa only [headD_nil, returns, reverse_reverse, append_nil] using
    applies_or_throws blocks.reverse (.nil : Applies env status state [] [])

end FirstThrow

/-! ### The error path -/

/-- A switch that throws at `block`: the blocks of the new branch below it were applied,
which gave the chain states `states`. -/
structure Throws (env : Environment χ) (s : ControllerState χ) (newHead : BlockState)
    (newBranch oldBranch : List BlockState) (common : BlockState) (older : List BlockState)
    (block : BlockState) (states : List χ) (failure : ApplyThrow) : Prop where
  forks : Forks s newHead newBranch oldBranch common
  split : ∃ newer, newBranch = newer ++ block :: older
  applies : Applies env (statusIn s.forkDb) (rewound s common oldBranch).db.state older states
  throws : applyOutcome env (statusIn s.forkDb block)
    (states.headD (rewound s common oldBranch).db.state) block = .error failure

namespace Throws

variable {older : List BlockState} {states : List χ} {failure : ApplyThrow}

section

variable (throws : Throws env s newHead newBranch oldBranch common older block states failure)

include throws

/-- The block that throws, in the fork database and on the blocks that were applied. -/
theorem path :
    s.forkDb.getBlock block.id = some block ∧
      blockLinkage.Path s.forkDb.getBlock block.previous older common.id := by
  obtain ⟨newer, split⟩ := throws.split
  have newPath := throws.forks.newPath
  rw [split] at newPath
  obtain ⟨middle, -, below⟩ := newPath.split
  cases below with
  | cons found rest =>
    exact ⟨by rw [(ForkDatabase.getBlock_eq_some.mp found).1, found], rest⟩

theorem unvalidated (synced : Synced env s) (replays : Replays env) :
    s.forkDb.isValid block.id = false := by
  obtain ⟨found, path⟩ := throws.path
  exact (synced.rewind throws.forks.has throws.forks.oldPath).not_valid_of_throw replays
    (isApplied_statusIn s.forkDb) found path throws.applies throws.throws

theorem applyBranch_eq (synced : Synced env s) :
    ∃ forkDb rest, MarkedAll s.forkDb older forkDb ∧ advanceHead env block
          (statusIn (ascended (rewound s common oldBranch) older states forkDb).forkDb block)
          (ascended (rewound s common oldBranch) older states forkDb) =
        .error failure.thrown
          (afterThrow (ascended (rewound s common oldBranch) older states forkDb) block failure) ∧
      switchForks env newHead s = applyBranch env oldBranch older.length (block :: rest)
        (ascended (rewound s common oldBranch) older states forkDb) := by
  obtain ⟨newer, split⟩ := throws.split
  obtain ⟨-, path⟩ := throws.path
  have below := synced.rewind throws.forks.has throws.forks.oldPath
  have isOpen := below.isOpen (older.length + 1)
  obtain ⟨forkDb, all, ran⟩ := applyBranch_of_applies isOpen (Nat.le_succ _) below.ranked.tree path
    throws.applies
  refine ⟨forkDb, newer.reverse, all, ?_, ?_⟩
  · have ready : Ready (ascended (rewound s common oldBranch) older states forkDb) block :=
      isOpen.ready throws.applies.length_eq path
    have vacant : Vacant (ascended (rewound s common oldBranch) older states forkDb) block :=
      isOpen.vacant (Nat.lt_succ_self _) path
    refine advanceHead_of_error ready vacant ?_
    change applyOutcome env (statusIn forkDb block)
      ((rewound s common oldBranch).db.pushes states).state block = _
    rw [UndoStack.pushes_state,
      statusIn_eq_of_markedAll synced.ranked.tree all (path.found s.forkDb.keyed)
        fun earlier member => ne_of_path path member]
    exact throws.throws
  · rw [synced.switchForks_eq throws.forks, split, reverse_append, reverse_cons,
      append_assoc, singleton_append, ran, Nat.zero_add]

end

def atFork (s : ControllerState χ) (common : BlockState) (oldBranch : List BlockState)
    (forkDb : ForkDatabase) (block : BlockState) (failure : ApplyThrow) : ControllerState χ :=
  afterThrow { rewound s common oldBranch with forkDb } block failure

/-- The database without the block and its descendants, on the way back. -/
structure Pruned (s : ControllerState χ) (older : List BlockState) (block : BlockState)
    (marked pruned : ForkDatabase) : Prop where
  all : MarkedAll s.forkDb older marked
  ranked : marked.Ranked
  unvalidated : marked.isValid block.id = false
  removed : Removed marked pruned block.id

theorem exists_pruned {forkDb : ForkDatabase}
    (throws : Throws env s newHead newBranch oldBranch common older block states failure)
    (synced : Synced env s) (replays : Replays env)
    (all : MarkedAll s.forkDb older forkDb) :
    ∃ pruned, ForkDatabase.remove block.id forkDb = .ok () pruned ∧
      Pruned s older block forkDb pruned := by
  obtain ⟨-, path⟩ := throws.path
  have below := synced.rewind throws.forks.has throws.forks.oldPath
  have ranked : forkDb.Ranked := all.ranked synced.ranked path below.headValid
  have unvalidated : forkDb.isValid block.id = false := by
    by_contra valid
    rw [Bool.not_eq_false, all.isValid_iff synced.ranked.tree (path.found s.forkDb.keyed),
      throws.unvalidated synced replays] at valid
    rcases valid with impossible | ⟨earlier, member, same⟩
    · cases impossible
    · exact ne_of_path path member same
  obtain ⟨pruned, ran, removed⟩ := remove_spec (ranked.not_reach_head unvalidated)
  exact ⟨pruned, ran, all, ranked, unvalidated, removed⟩

namespace Pruned

variable {marked pruned : ForkDatabase}

section

variable (isPruned : Pruned s older block marked pruned)

include isPruned

theorem path_of_valid {id top : BlockId}
    {nodes : List BlockState} (path : blockLinkage.Path s.forkDb.getBlock id nodes top)
    (valid : ∀ node ∈ nodes, marked.isValid node.id = true) :
    blockLinkage.Path pruned.getBlock id nodes top := by
  rw [← isPruned.all.getBlock_eq] at path
  refine path_mono path fun node member => ?_
  refine isPruned.removed.getBlock_iff.mpr ⟨path.found marked.keyed node member, fun reach => ?_⟩
  have nodeValid := valid node member
  rw [isPruned.ranked.not_valid_of_reach isPruned.unvalidated reach] at nodeValid
  cases nodeValid

theorem has_of_valid (has : s.forkDb.Has other) (valid : marked.isValid other.id = true) :
    pruned.Has other :=
  isPruned.removed.has_of_has isPruned.ranked isPruned.unvalidated (isPruned.all.has_iff.mpr has) valid

theorem getBlock_iff :
    pruned.getBlock other.id = some other ↔
      s.forkDb.getBlock other.id = some other ∧ ¬ Reach s.forkDb.index block.id other.id := by
  rw [isPruned.removed.getBlock_iff, isPruned.all.getBlock_eq, reach_congr isPruned.all.getBlock_eq]

end

end Pruned

section WayBack

variable {marked pruned : ForkDatabase}

section

variable (throws : Throws env s newHead newBranch oldBranch common older block states failure)

include throws

/-- The blocks of both branches that were applied are validated, and so is the common
block. -/
theorem valid_of_marked (synced : Synced env s) (isPruned : Pruned s older block marked pruned) :
    marked.isValid common.id = true ∧ (∀ node ∈ older, marked.isValid node.id = true) ∧
      ∀ node ∈ oldBranch, marked.isValid node.id = true := by
  have marks : ∀ id, marked.isValid id = true ↔
      s.forkDb.isValid id = true ∨ ∃ earlier ∈ older, id = earlier.id := fun _ =>
    isPruned.all.isValid_iff synced.ranked.tree (throws.path.2.found s.forkDb.keyed)
  obtain ⟨commonValid, oldValid⟩ :=
    synced.ranked.valid_of_path throws.forks.oldPath synced.headValid
  exact ⟨(marks _).mpr (.inl commonValid), fun node member => (marks _).mpr (.inr ⟨node, member, rfl⟩),
    fun node member => (marks _).mpr (.inl (oldValid node member))⟩

theorem num_eq : block.blockNum = common.blockNum + older.length + 1 := by
  have counted := throws.path.2.generation_eq s.forkDb.keyed
  change numFromId block.previous = numFromId common.id + _ at counted
  rw [common.idNum] at counted
  have own := block.previousNum
  omega

section

variable (synced : Synced env s)

include synced

theorem popBlocks_eq (isPruned : Pruned s older block marked pruned) :
    popBlocks older.length
        { afterThrow (ascended (rewound s common oldBranch) older states marked) block failure with
          forkDb := pruned } =
      .ok () (atFork s common oldBranch pruned block failure) := by
  obtain ⟨-, path⟩ := throws.path
  obtain ⟨commonValid, olderValid, -⟩ := throws.valid_of_marked synced isPruned
  have top := path_headD path
  have topNum : (older.headD common).blockNum < block.blockNum := by
    have := num_of_previous top
    omega
  have topHas : pruned.Has (older.headD common) := by
    refine isPruned.has_of_valid (has_headD throws.forks.has path) ?_
    cases older with
    | nil => exact commonValid
    | cons first _ => exact olderValid first mem_cons_self
  rw [← top] at path
  have popped := popBlocks_spec
    (s := { afterThrow (ascended (rewound s common oldBranch) older states marked) block failure with
      forkDb := pruned })
    (isPruned.removed.tree isPruned.ranked.tree) topHas
    (isPruned.has_of_valid throws.forks.has commonValid) (isPruned.path_of_valid path olderValid)
  have undone : ((rewound s common oldBranch).db.pushes states).undos older.length =
      (rewound s common oldBranch).db := by
    rw [← throws.applies.length_eq, UndoStack.undos_pushes]
  have tree := synced.ranked.tree
  have kept : (if failure.stored then block :: (older ++ s.forkDb.branch common.id)
        else older ++ s.forkDb.branch common.id).filter (fun stored =>
      stored.blockNum ≤ common.blockNum ∨ (older.headD common).blockNum < stored.blockNum) =
        if failure.stored then block :: s.forkDb.branch common.id
        else s.forkDb.branch common.id := by
    cases failure.stored with
    | true =>
      have below := filter_branch [block] tree throws.forks.has path (by simpa using topNum)
      rw [singleton_append, singleton_append] at below
      rw [if_pos rfl, if_pos rfl]
      exact below
    | false =>
      have below := filter_branch [] tree throws.forks.has path (by simp)
      rw [nil_append, nil_append] at below
      rw [if_neg Bool.false_ne_true, if_neg Bool.false_ne_true]
      exact below
  refine popped.trans ?_
  change EStateM.Result.ok () { atFork s common oldBranch pruned block failure with
    db := ((rewound s common oldBranch).db.pushes states).undos older.length
    reversibleBlocks := (if failure.stored then block :: (older ++ s.forkDb.branch common.id)
        else older ++ s.forkDb.branch common.id).filter (fun stored =>
      stored.blockNum ≤ common.blockNum ∨ (older.headD common).blockNum < stored.blockNum) } = _
  rw [undone, kept]
  rfl

/-- The error path up to where the old branch is applied again. -/
theorem undoSwitch_eq (ran : ForkDatabase.remove block.id marked = .ok () pruned)
    (isPruned : Pruned s older block marked pruned) :
    undoSwitch env oldBranch older.length block thrown
        (afterThrow (ascended (rewound s common oldBranch) older states marked) block failure) =
      if oldBranch = [] then
        .error ⟨.fault, "back() of an empty branch"⟩ (atFork s common oldBranch pruned block failure)
      else (do reapplyBlocks env oldBranch.reverse; throw thrown : ControllerM χ Unit)
        (atFork s common oldBranch pruned block failure) := by
  have removing := onForkDb_of_ok (s := afterThrow
    (ascended (rewound s common oldBranch) older states marked) block failure) ran
  unfold undoSwitch
  rw [bind_of_ok removing, bind_of_ok (throws.popBlocks_eq synced isPruned)]
  cases last : oldBranch.getLast? with
  | none =>
    rw [if_pos (getLast?_eq_none_iff.mp last)]
    rfl
  | some oldest =>
    have nonempty : oldBranch ≠ [] := by
      rintro rfl
      cases last
    have joined : (atFork s common oldBranch pruned block failure).head.id = oldest.previous :=
      throws.forks.joined last
    dsimp only
    rw [if_neg nonempty, get_bind, bind_of_ok (assert_of_true joined)]

/-- Blocks of the old branch can be applied again up to a reversible block that the throw
left behind. -/
theorem isOpen_atFork {count : Nat} (aborted : failure.aborted = true)
    (free : failure.stored = true → common.blockNum + count < block.blockNum) :
    Open (atFork s common oldBranch pruned block failure) count where
  idle := by
    change (if failure.aborted then none else some PendingState.building) = none
    rw [if_pos aborted]
  mode := synced.mode
  onPar := ((synced.rewind throws.forks.has throws.forks.oldPath).isOpen count).onPar
  free := by
    have trunk := ((synced.rewind throws.forks.has throws.forks.oldPath).isOpen count).free
    intro stored member
    change stored ∈ (if failure.stored then block :: (rewound s common oldBranch).reversibleBlocks
      else (rewound s common oldBranch).reversibleBlocks) at member
    split at member
    case isTrue isStored =>
      rcases mem_cons.mp member with rfl | before
      · exact .inr (free isStored)
      · exact trunk stored before
    case isFalse => exact trunk stored member

end

end

/-- The state after the error path, with what is left in the reversible blocks. -/
def restored (s : ControllerState χ) (common : BlockState) (oldBranch : List BlockState)
    (pruned : ForkDatabase) (block : BlockState) (failure : ApplyThrow) : ControllerState χ :=
  { s with
    forkDb := pruned
    reversibleBlocks := oldBranch ++ (atFork s common oldBranch pruned block failure).reversibleBlocks }

theorem reapplyBlocks_restores
    (throws : Throws env s newHead newBranch oldBranch common older block states failure)
    (synced : Synced env s) (replays : Replays env) (isPruned : Pruned s older block marked pruned)
    (aborted : failure.aborted = true)
    (free : failure.stored = true → s.head.blockNum < block.blockNum) :
    reapplyBlocks env oldBranch.reverse (atFork s common oldBranch pruned block failure) =
      .ok () (restored s common oldBranch pruned block failure) := by
  obtain ⟨-, -, oldValid⟩ := throws.valid_of_marked synced isPruned
  obtain ⟨bottom, allStates, executed⟩ := synced.executed
  obtain ⟨oldStates, _, -, -, applies, stack⟩ :=
    executed.rewind synced.ranked.tree throws.forks.has throws.forks.oldPath
  have length := path_num_eq throws.forks.oldPath
  have isOpen : Open (atFork s common oldBranch pruned block failure) oldBranch.length :=
    throws.isOpen_atFork synced aborted (by rwa [← length])
  have path : blockLinkage.Path pruned.getBlock s.head.id oldBranch common.id :=
    isPruned.path_of_valid throws.forks.oldPath oldValid
  have ran := reapplyBlocks_of_applies isOpen le_rfl path
    (replays.applies (fun _ _ => .inr rfl) applies) []
  have top : oldBranch.headD common = s.head :=
    synced.ranked.tree.has_unique (has_headD throws.forks.has throws.forks.oldPath)
      synced.headHas (path_headD throws.forks.oldPath)
  have idle : (atFork s common oldBranch pruned block failure).pending = s.pending := by
    rw [isOpen.idle, synced.idle]
  rw [append_nil] at ran
  refine ran.trans ?_
  change EStateM.Result.ok () { restored s common oldBranch pruned block failure with
    head := oldBranch.headD common
    db := (rewound s common oldBranch).db.pushes oldStates
    pending := (atFork s common oldBranch pruned block failure).pending } = _
  rw [top, ← stack, idle]
  rfl

/-- Without an abort the pending block is in the way of the old branch. -/
theorem reapplyBlocks_of_busy (busy : failure.aborted = false) (nonempty : oldBranch ≠ []) :
    ∃ thrown s', reapplyBlocks env oldBranch.reverse
      (atFork s common oldBranch pruned block failure) = .error thrown s' ∧ s'.head = common := by
  have pending : (atFork s common oldBranch pruned block failure).pending = some .building := by
    change (if failure.aborted then none else some PendingState.building) = _
    rw [busy, if_neg Bool.false_ne_true]
  cases reversed : oldBranch.reverse with
  | nil => exact absurd (reverse_eq_nil_iff.mp reversed) nonempty
  | cons oldest rest =>
    obtain ⟨thrown, ran⟩ : ∃ thrown, applyBlock env oldest .validated
        (atFork s common oldBranch pruned block failure) =
          .error thrown { atFork s common oldBranch pruned block failure with pending := none } :=
      applyBlock_of_busy pending
    exact ⟨thrown, _, reapplyBlocks_of_error ran, rfl⟩

/-- A reversible block that was left behind is in the way of the block of its number. -/
theorem reapplyBlocks_of_taken
    (throws : Throws env s newHead newBranch oldBranch common older block states failure)
    (synced : Synced env s) (replays : Replays env) (isPruned : Pruned s older block marked pruned)
    (aborted : failure.aborted = true) (isStored : failure.stored = true)
    (reaches : block.blockNum ≤ s.head.blockNum) :
    ∃ thrown s', reapplyBlocks env oldBranch.reverse
      (atFork s common oldBranch pruned block failure) = .error thrown s' ∧
        s'.head.blockNum < s.head.blockNum := by
  obtain ⟨-, -, oldValid⟩ := throws.valid_of_marked synced isPruned
  obtain ⟨bottom, allStates, executed⟩ := synced.executed
  obtain ⟨oldStates, _, -, -, applies, -⟩ :=
    executed.rewind synced.ranked.tree throws.forks.has throws.forks.oldPath
  have path : blockLinkage.Path pruned.getBlock s.head.id oldBranch common.id :=
    isPruned.path_of_valid throws.forks.oldPath oldValid
  -- The block of the old branch with the same number, and the blocks below it.
  obtain ⟨twin, member, twinNum⟩ : ∃ twin ∈ oldBranch, twin.blockNum = block.blockNum := by
    have above := throws.num_eq
    obtain ⟨twin, member, same⟩ := path.exists_generation pruned.keyed
      (show numFromId common.id < block.blockNum by rw [common.idNum]; omega)
      (show block.blockNum ≤ numFromId s.head.id by rw [s.head.idNum]; exact reaches)
    exact ⟨twin, member, by rw [← twin.idNum]; exact same⟩
  obtain ⟨upper, lower, rfl⟩ := append_of_mem member
  obtain ⟨middle, -, below⟩ := path.split
  obtain ⟨_, lowStates, -, low, -⟩ := applies.split
  cases low with
  | @cons _ lowerStates _ session lowerApplies outcome =>
    cases below with
    | cons found lowerPath =>
      have lowerNum : twin.blockNum = common.blockNum + lower.length + 1 := by
        have counted := lowerPath.generation_eq pruned.keyed
        change numFromId twin.previous = numFromId common.id + _ at counted
        rw [common.idNum] at counted
        have own := twin.previousNum
        omega
      have isOpen : Open (atFork s common (upper ++ twin :: lower) pruned block failure)
          lower.length := throws.isOpen_atFork synced aborted (by omega)
      have ran := reapplyBlocks_of_applies isOpen le_rfl lowerPath
        (replays.applies (fun _ _ => .inr rfl) lowerApplies) (twin :: upper.reverse)
      have ready : Ready (ascended (atFork s common (upper ++ twin :: lower) pruned block failure)
          lower lowerStates pruned) twin := isOpen.ready lowerApplies.length_eq lowerPath
      have taken : ¬ Vacant (ascended
          (atFork s common (upper ++ twin :: lower) pruned block failure)
          lower lowerStates pruned) twin := by
        intro vacant
        refine vacant block (mem_append_right _ ?_) twinNum.symm
        change block ∈ (if failure.stored then block :: _ else _)
        rw [if_pos isStored]
        exact mem_cons_self
      have again : applyOutcome env .validated
          (ascended (atFork s common (upper ++ twin :: lower) pruned block failure)
            lower lowerStates pruned).db.state twin = .ok session := by
        change applyOutcome env _ (UndoStack.pushes _ lowerStates).state twin = _
        rw [UndoStack.pushes_state]
        exact replays.applyOutcome (.inr rfl) outcome
      obtain ⟨thrown, stops⟩ := applyBlock_of_taken ready taken again
      refine ⟨thrown, ascended (atFork s common (upper ++ twin :: lower) pruned block failure)
        lower lowerStates pruned, ?_, ?_⟩
      · rw [reverse_append, reverse_cons, append_assoc, singleton_append]
        exact ran.trans (reapplyBlocks_of_error stops)
      · change (lower.headD common).blockNum < s.head.blockNum
        have top := path_headD lowerPath
        have := num_of_previous top
        omega

end WayBack

section

variable (throws : Throws env s newHead newBranch oldBranch common older block states failure)

include throws

/-- A switch that throws an `fc::exception` ends on the error path. -/
theorem switchForks_of_fc
    (synced : Synced env s) (replays : Replays env) (isFc : failure.thrown.code.isFc = true) :
    ∃ marked pruned, Pruned s older block marked pruned ∧ switchForks env newHead s =
      if oldBranch = [] then
        .error ⟨.fault, "back() of an empty branch"⟩ (atFork s common oldBranch pruned block failure)
      else (do reapplyBlocks env oldBranch.reverse; throw failure.thrown : ControllerM χ Unit)
        (atFork s common oldBranch pruned block failure) := by
  obtain ⟨marked, rest, all, threw, loop⟩ := throws.applyBranch_eq synced
  obtain ⟨pruned, ran, isPruned⟩ := throws.exists_pruned synced replays all
  refine ⟨marked, pruned, isPruned, ?_⟩
  rw [loop, applyBranch_of_error threw isFc, throws.undoSwitch_eq synced ran isPruned]

theorem switchForks_of_other (synced : Synced env s) (notFc : failure.thrown.code.isFc = false) :
    ∃ s', switchForks env newHead s = .error failure.thrown s' ∧
      s'.forkDb.getBlock = s.forkDb.getBlock := by
  obtain ⟨marked, rest, all, threw, loop⟩ := throws.applyBranch_eq synced
  exact ⟨_, loop.trans (applyBranch_of_other threw notFc), all.getBlock_eq⟩

end

end Throws

/-! ### When a failed switch is undone -/

/-- The state after a failed switch is the state before it, without the block that threw
and what is built on it. -/
structure SwitchUndone (s s' : ControllerState χ) (block : BlockState) : Prop where
  head : s'.head = s.head
  db : s'.db = s.db
  pending : s'.pending = s.pending
  root : s'.forkDb.root = s.forkDb.root
  lost : ∀ other : BlockState, s'.forkDb.getBlock other.id = some other ↔
    s.forkDb.getBlock other.id = some other ∧ ¬ Reach s.forkDb.index block.id other.id

/-- The call throws, with no access outside the branches, and is undone. -/
def FailsCleanly (result : EStateM.Result ChainException (ControllerState χ) Unit)
    (s : ControllerState χ) (block : BlockState) : Prop :=
  ∃ thrown s', result = .error thrown s' ∧ thrown.code ≠ .fault ∧ SwitchUndone s s' block

def switchStatus (s : ControllerState χ) (newHead : BlockState) (status : BlockStatus) :
    BlockState → BlockStatus :=
  if newHead.previous = s.head.id then fun _ => status else statusIn s.forkDb

/-- The throws that can be undone: an `fc::exception` that aborted the block, where
the new head is built directly on the head, or is not built on it and no reversible
block is left in the way of the old branch. -/
def Undoable (s : ControllerState χ) (newHead block : BlockState) (failure : ApplyThrow) : Prop :=
  failure.thrown.code.isFc = true ∧ failure.aborted = true ∧
    (newHead.previous = s.head.id ∨ ¬ Reach s.forkDb.index s.head.id newHead.id ∧
      (failure.stored = true → s.head.blockNum < block.blockNum))

theorem ne_fault_of_isFc {code : ExceptionCode} (isFc : code.isFc = true) : code ≠ .fault := by
  rintro rfl
  cases isFc

section FailedSwitch

variable {status : BlockStatus} {failure : ApplyThrow}

theorem not_failsCleanly_of_kept {s' : ControllerState χ}
    {result : EStateM.Result ChainException (ControllerState χ) Unit}
    (ran : result = .error thrown s') (kept : s'.forkDb.getBlock = s.forkDb.getBlock)
    (found : s.forkDb.getBlock block.id = some block) : ¬ FailsCleanly result s block := by
  rintro ⟨_, _, same, -, undone⟩
  obtain ⟨-, rfl⟩ := EStateM.Result.error.inj (ran.symm.trans same)
  exact ((undone.lost block).mp (by rw [kept, found])).2 .self

theorem failsCleanly_iff_of_direct (synced : Synced env s) (replays : Replays env)
    (isApplied : IsApplied status) (found : s.forkDb.getBlock newHead.id = some newHead)
    (direct : newHead.previous = s.head.id)
    (throws : applyOutcome env status s.db.state newHead = .error failure) :
    FailsCleanly (maybeSwitchForks env newHead status s) s newHead ↔
      failure.thrown.code.isFc = true ∧ failure.aborted = true := by
  have path : blockLinkage.Path s.forkDb.getBlock newHead.previous [] s.head.id :=
    Linkage.Path.nil_iff.mpr direct
  obtain ⟨ready, vacant⟩ := synced.ready direct
  have threw := advanceHead_of_error ready vacant throws
  have unvalidated : s.forkDb.isValid newHead.id = false :=
    synced.not_valid_of_throw replays (fun _ => isApplied) found path .nil throws
  cases isFc : failure.thrown.code.isFc with
  | false =>
    simp only [Bool.false_eq_true, false_and, iff_false]
    have result : maybeSwitchForks env newHead status s =
        .error failure.thrown (afterThrow s newHead failure) := by
      unfold maybeSwitchForks
      rw [get_bind, if_pos direct, bind_of_error (attempt_of_other threw isFc)]
    exact not_failsCleanly_of_kept result rfl found
  | true =>
    obtain ⟨pruned, ran, removed⟩ := remove_spec (synced.ranked.not_reach_head unvalidated)
    have result : maybeSwitchForks env newHead status s = .error failure.thrown
        { afterThrow s newHead failure with forkDb := pruned } := by
      unfold maybeSwitchForks
      rw [get_bind, if_pos direct, bind_of_ok (attempt_of_error threw isFc)]
      exact bind_of_ok (onForkDb_of_ok (s := afterThrow s newHead failure) ran)
    have pending : (if failure.aborted then none else some PendingState.building) =
        s.pending ↔ failure.aborted = true := by
      rw [synced.idle]
      cases failure.aborted <;> simp
    simp only [true_and]
    constructor
    · rintro ⟨_, _, same, -, undone⟩
      obtain ⟨-, rfl⟩ := EStateM.Result.error.inj (result.symm.trans same)
      exact pending.mp undone.pending
    · intro aborted
      exact ⟨_, _, result, ne_fault_of_isFc isFc, rfl, rfl, pending.mpr aborted, removed.root,
        fun other => removed.getBlock_iff⟩

theorem not_failsCleanly_of_head {s' : ControllerState χ}
    {result : EStateM.Result ChainException (ControllerState χ) Unit}
    (ran : result = .error thrown s') (lower : s'.head.blockNum < s.head.blockNum) :
    ¬ FailsCleanly result s block := by
  rintro ⟨_, _, same, -, undone⟩
  obtain ⟨-, rfl⟩ := EStateM.Result.error.inj (ran.symm.trans same)
  rw [undone.head] at lower
  exact lt_irrefl _ lower

variable {older : List BlockState} {states : List χ}

theorem failsCleanly_iff_of_switch (synced : Synced env s) (replays : Replays env)
    (throws : Throws env s newHead newBranch oldBranch common older block states failure)
    (indirect : newHead.previous ≠ s.head.id) (other : newHead.id ≠ s.head.id) :
    FailsCleanly (maybeSwitchForks env newHead status s) s block ↔
      failure.thrown.code.isFc = true ∧ failure.aborted = true ∧
        ¬ Reach s.forkDb.index s.head.id newHead.id ∧
          (failure.stored = true → s.head.blockNum < block.blockNum) := by
  have called : maybeSwitchForks env newHead status s =
      (switchForks env newHead >>= fun _ => logIrreversible env) s := by
    unfold maybeSwitchForks
    rw [get_bind, if_neg indirect, if_pos other]
  cases isFc : failure.thrown.code.isFc with
  | false =>
    obtain ⟨s', ran, kept⟩ := throws.switchForks_of_other synced isFc
    simp only [Bool.false_eq_true, false_and, iff_false]
    exact not_failsCleanly_of_kept (called.trans (bind_of_error ran)) kept throws.path.1
  | true =>
    obtain ⟨marked, pruned, isPruned, ran⟩ := throws.switchForks_of_fc synced replays isFc
    by_cases isEmpty : oldBranch = []
    · -- The error path looks at the last block of an empty branch.
      have reach := throws.forks.empty.mp isEmpty
      rw [if_pos isEmpty] at ran
      constructor
      · rintro ⟨_, _, same, notFault, -⟩
        obtain ⟨rfl, -⟩ := EStateM.Result.error.inj
          ((called.trans (bind_of_error ran)).symm.trans same)
        exact absurd rfl notFault
      · rintro ⟨-, -, notReach, -⟩
        exact absurd reach notReach
    · have notReach : ¬ Reach s.forkDb.index s.head.id newHead.id := fun reach =>
        isEmpty (throws.forks.empty.mpr reach)
      have above : common.blockNum < s.head.blockNum := by
        have length := path_num_eq throws.forks.oldPath
        have := length_pos_of_ne_nil isEmpty
        omega
      rw [if_neg isEmpty] at ran
      have stops : ∀ {thrown s'}, reapplyBlocks env oldBranch.reverse
          (Throws.atFork s common oldBranch pruned block failure) = .error thrown s' →
          maybeSwitchForks env newHead status s = .error thrown s' := fun stopped =>
        called.trans (bind_of_error (ran.trans (bind_of_error stopped)))
      cases aborted : failure.aborted with
      | false =>
        obtain ⟨thrown, s', stopped, atCommon⟩ := Throws.reapplyBlocks_of_busy aborted isEmpty
        simp only [Bool.false_eq_true, false_and, and_false, iff_false]
        exact not_failsCleanly_of_head (stops stopped) (by rwa [atCommon])
      | true =>
        by_cases free : failure.stored = true → s.head.blockNum < block.blockNum
        · have again := throws.reapplyBlocks_restores synced replays isPruned aborted free
          have result : maybeSwitchForks env newHead status s = .error failure.thrown
              (Throws.restored s common oldBranch pruned block failure) :=
            called.trans (bind_of_error (ran.trans (bind_of_ok again)))
          refine iff_of_true ⟨_, _, result, ne_fault_of_isFc isFc, rfl, rfl, rfl, ?_, ?_⟩
            ⟨rfl, rfl, notReach, free⟩
          · exact isPruned.removed.root.trans isPruned.all.root
          · exact fun other => isPruned.getBlock_iff
        · obtain ⟨isStored, reaches⟩ := Classical.not_imp.mp free
          obtain ⟨thrown, s', stopped, lower⟩ := throws.reapplyBlocks_of_taken synced replays
            isPruned aborted isStored (Nat.le_of_not_lt reaches)
          refine iff_of_false (not_failsCleanly_of_head (stops stopped) lower) ?_
          rintro ⟨-, -, -, isFree⟩
          exact free isFree

/-- **A failed fork switch.** When applying a block of the new branch throws, the
switch is undone exactly when the throw is `Undoable`. -/
theorem failsCleanly_iff_undoable (synced : Synced env s) (replays : Replays env)
    (isApplied : IsApplied status) (newHas : s.forkDb.Has newHead)
    (fetched : s.forkDb.fetchBranchFrom newHead.id s.head.id = .ok (newBranch, oldBranch))
    (throws : firstThrow env (switchStatus s newHead status) (s.db.undos oldBranch.length).state
      newBranch.reverse = some (block, failure)) :
    FailsCleanly (maybeSwitchForks env newHead status s) s block ↔
      Undoable s newHead block failure := by
  obtain ⟨newBranch', oldBranch', common, forks⟩ := synced.forks newHas
  obtain ⟨rfl, rfl⟩ := Prod.mk.inj (Except.ok.inj (fetched.symm.trans forks.fetched))
  obtain ⟨newer, older, states, split, applies, threw⟩ := exists_of_firstThrow throws
  have nonempty : newBranch ≠ [] := by simp [split]
  have found : s.forkDb.getBlock newHead.id = some newHead := by
    refine newHas.resolve_left fun isRoot => ?_
    have path := forks.newPath
    cases newBranch with
    | nil => exact nonempty rfl
    | cons =>
      cases path with
      | cons inside _ =>
        rw [isRoot, synced.ranked.tree.getBlock_root] at inside
        cases inside
  unfold switchStatus at applies threw
  unfold Undoable
  by_cases direct : newHead.previous = s.head.id
  · obtain ⟨isSingle, rfl⟩ := forks.direct found direct
    have parts := (split.symm.trans isSingle)
    obtain ⟨rfl, rfl, rfl⟩ : newer = [] ∧ block = newHead ∧ older = [] := by
      cases newer with
      | nil => simpa using parts
      | cons => simp at parts
    cases applies
    rw [if_pos direct] at threw
    rw [failsCleanly_iff_of_direct synced replays isApplied found direct threw]
    simp [direct]
  · rw [if_neg direct] at applies threw
    have isThrow : Throws env s newHead newBranch oldBranch common older block states failure :=
      ⟨forks, ⟨newer, split⟩, applies, threw⟩
    rw [failsCleanly_iff_of_switch synced replays isThrow direct (forks.ne_head nonempty),
      or_iff_right direct]

end FailedSwitch

/-! ### Two switches -/

def sampleId (num tag : Nat) : BlockId := endianReverseU32 num * 2 ^ 192 + tag

def rootBlock : BlockState := ⟨sampleId 1 0, sampleId 0 0, 1, 0, by decide, by decide, by decide⟩

def blockA : BlockState := ⟨sampleId 2 1, sampleId 1 0, 2, 0, by decide, by decide, by decide⟩

def blockB : BlockState := ⟨sampleId 2 2, sampleId 1 0, 2, 0, by decide, by decide, by decide⟩

def blockC : BlockState := ⟨sampleId 3 0, sampleId 2 2, 3, 0, by decide, by decide, by decide⟩

/-- The chain state counts blocks, and the block with id `bad` is invalid. -/
def counting (bad : BlockId) : Environment Nat where
  exec _ state block :=
    if block.id = bad then .error ⟨.blockValidateException, "receipt does not match"⟩
    else .ok (state + 1)
  handler _ _ := none
  create _ := none
  commit _ := none
  append _ := none
  rethrow := id
  rethrow_isFc _ isFc := isFc

theorem replays_counting (bad : BlockId) : Replays (counting bad) :=
  ⟨fun _ _ _ => rfl, fun _ _ _ executed => executed⟩

def unexecuted : ControllerState Nat where
  forkDb := {
    index := ⟨[⟨blockA, false⟩, ⟨blockB, false⟩, ⟨blockC, false⟩], by decide⟩
    root := rootBlock
    head := rootBlock }
  head := rootBlock
  db := ⟨0, [], 1⟩
  reversibleBlocks := []
  blog := ⟨1, [rootBlock]⟩
  readMode := .speculative
  pending := none

theorem synced_unexecuted (bad : BlockId) : Synced (counting bad) unexecuted :=
  Synced.of_root ⟨by decide, by decide⟩ rfl (by decide) rfl rfl (by decide) rfl rfl

/-- The error path of a switch from the root to `blockC` looks at the last block of an
empty branch. -/
theorem switch_from_ancestor_not_clean :
    Synced (counting blockC.id) unexecuted ∧ Replays (counting blockC.id) ∧
      unexecuted.forkDb.Has blockC ∧
      unexecuted.forkDb.fetchBranchFrom blockC.id unexecuted.head.id = .ok ([blockC, blockB], []) ∧
      (∃ failure, firstThrow (counting blockC.id) (switchStatus unexecuted blockC .complete) 0
        [blockB, blockC] = some (blockC, failure)) ∧
      (∃ s', maybeSwitchForks (counting blockC.id) blockC .complete unexecuted =
        .error ⟨.fault, "back() of an empty branch"⟩ s') ∧
      ¬ FailsCleanly (maybeSwitchForks (counting blockC.id) blockC .complete unexecuted)
        unexecuted blockC := by
  have faults : ∃ s', maybeSwitchForks (counting blockC.id) blockC .complete unexecuted =
      .error ⟨.fault, "back() of an empty branch"⟩ s' := ⟨_, rfl⟩
  refine ⟨synced_unexecuted _, replays_counting _, .inr rfl, rfl, ⟨_, rfl⟩, faults, ?_⟩
  rintro ⟨_, _, same, notFault, -⟩
  obtain ⟨_, ran⟩ := faults
  obtain ⟨rfl, -⟩ := EStateM.Result.error.inj (ran.symm.trans same)
  exact notFault rfl

def executedA : ControllerState Nat :=
  { unexecuted with
    forkDb := {
      index := ⟨[⟨blockA, true⟩, ⟨blockB, false⟩, ⟨blockC, false⟩], by decide⟩
      root := rootBlock
      head := blockA }
    head := blockA
    db := ⟨1, [0], 2⟩
    reversibleBlocks := [blockA] }

theorem synced_executedA : Synced (counting blockC.id) executedA := by
  have found : unexecuted.forkDb.getBlock blockA.id = some blockA := rfl
  obtain ⟨forkDb, ran, marked⟩ := markValid_spec found
  have computed : markValid blockA unexecuted.forkDb = .ok () executedA.forkDb := rfl
  obtain ⟨-, rfl⟩ := EStateM.Result.ok.inj (ran.symm.trans computed)
  have path : blockLinkage.Path unexecuted.forkDb.getBlock blockA.id [blockA] rootBlock.id :=
    .cons found (Linkage.Path.nil_iff.mpr rfl)
  have applies : Applies (counting blockC.id) (fun _ => .complete) 0 [blockA] [1] := .cons .nil rfl
  exact (synced_unexecuted _).ascend (.cons .nil marked) path applies

theorem not_reach_blockC : ¬ Reach executedA.forkDb.index blockA.id blockC.id := by
  have ofC : (⟨blockC, false⟩ : ForkEntry) ∈ executedA.forkDb.index.entries := by decide
  have ofB : (⟨blockB, false⟩ : ForkEntry) ∈ executedA.forkDb.index.entries := by decide
  intro reach
  have below : Reach executedA.forkDb.index blockA.id blockB.id := reach.previous ofC (by decide)
  have atRoot : Reach executedA.forkDb.index blockA.id rootBlock.id := below.previous ofB (by decide)
  have num := atRoot.num_le
  rw [blockA.idNum, rootBlock.idNum] at num
  exact absurd num (by decide)

/-- The switch from `blockA` to the branch of `blockC` is undone when `blockC` turns out
to be invalid. -/
theorem switch_to_blockC_failsCleanly :
    FailsCleanly (maybeSwitchForks (counting blockC.id) blockC .complete executedA)
      executedA blockC := by
  have fetched : executedA.forkDb.fetchBranchFrom blockC.id executedA.head.id =
      .ok ([blockC, blockB], [blockA]) := rfl
  refine (failsCleanly_iff_undoable synced_executedA (replays_counting _) (.inl rfl) (.inr rfl)
    fetched rfl).mpr ⟨rfl, rfl, .inr ⟨not_reach_blockC, ?_⟩⟩
  decide

end ControllerM

end CodexRelay.Chain
