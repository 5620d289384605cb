import CodexRelay.Chain.Controller.LogIrreversible

/-!
Contract: calls of `push_block` and `commit_block` in a quiet environment.

Owns:
- `SwitchOutcome` and `PushOutcome`, the ways in which `maybe_switch_forks` and
  `push_block` end;
- that the pending head becomes the head of both the controller and the fork
  database;
- `Call`, a call that ends, and `Change`, what it does to a controller that satisfies
  the invariants.
-/

namespace CodexRelay.Chain

open Library ForkDatabase

variable {newBranch oldBranch older : List BlockState} {common : BlockState}

variable {pruned forkDb : ForkDatabase}

namespace ControllerM

variable {χ : Type} {env : Environment χ} {s : ControllerState χ} {block newHead : BlockState}

/-! ### Ends of a switch -/

def FromExec (env : Environment χ) (thrown : ChainException) : Prop :=
  ∃ status state block cause, (env.start status state block = some cause ∨
    env.exec status state block = .error cause) ∧ thrown = rethrown env cause

theorem isFc_rethrown {thrown : ChainException} (isFc : thrown.code.isFc = true) :
    (rethrown env thrown).code.isFc = true := by
  unfold rethrown
  rw [if_neg (ne_fault_of_isFc isFc)]
  exact env.rethrow_isFc thrown isFc

/-- Only the start and the execution of a block can fail, and then the block is aborted. -/
theorem Quiet.failure (quiet : Quiet env) {status : BlockStatus} {state : χ} {failure : ApplyThrow}
    (throws : applyOutcome env status state block = .error failure) :
    failure.thrown.code.isFc = true ∧ failure.aborted = true ∧ failure.stored = false ∧
      FromExec env failure.thrown := by
  unfold applyOutcome at throws
  split at throws
  case h_1 cause failed =>
    obtain rfl := Except.error.inj throws
    exact ⟨isFc_rethrown (quiet.start _ _ _ _ failed), rfl, rfl, _, _, _, _, .inl failed, rfl⟩
  case h_2 =>
    split at throws
    case h_1 cause failed =>
      obtain rfl := Except.error.inj throws
      have isFc := quiet.exec _ _ _ _ failed
      exact ⟨isFc_rethrown isFc, isFc, rfl, _, _, _, _, .inr failed, rfl⟩
    case h_2 =>
      rw [quiet.create, quiet.signals] at throws
      cases throws

/-- A switch that succeeded, up to `log_irreversible`: a branch from a validated block up
to the new head was marked. -/
structure Switched (env : Environment χ) (s : ControllerState χ) (newHead : BlockState)
    (middle : ControllerState χ) : Prop where
  synced : Synced env middle
  head : middle.head = newHead
  blog : middle.blog = s.blog
  branch : ∃ newBranch top, blockLinkage.Path s.forkDb.getBlock newHead.id newBranch top ∧
    s.forkDb.isValid top = true ∧ MarkedAll s.forkDb newBranch middle.forkDb

/-- A switch that failed: only the fork database has changed. It has lost a block from
which the new head descends. -/
structure SwitchFailed (env : Environment χ) (s : ControllerState χ) (newHead : BlockState)
    (pruned : ForkDatabase) : Prop where
  synced : Synced env { s with forkDb := pruned }
  branch : ∃ older block marked top,
    blockLinkage.Path s.forkDb.getBlock block.id (block :: older) top ∧
      s.forkDb.isValid top = true ∧ Reach s.forkDb.index block.id newHead.id ∧
        Throws.Pruned s older block marked pruned

inductive SwitchOutcome (env : Environment χ) (s : ControllerState χ) (newHead : BlockState) :
    EStateM.Result ChainException (ControllerState χ) Unit → Prop where
  | stays (same : newHead.id = s.head.id) : SwitchOutcome env s newHead (.ok () s)
  | switches {middle : ControllerState χ} (switched : Switched env s newHead middle) :
      SwitchOutcome env s newHead (logIrreversible env middle)
  | fails {thrown : ChainException} {pruned : ForkDatabase} (isFc : thrown.code.isFc = true)
      (fromExec : FromExec env thrown) (failed : SwitchFailed env s newHead pruned) :
      SwitchOutcome env s newHead (.error thrown { s with forkDb := pruned })
  | faults {newBranch : List BlockState} {s' : ControllerState χ}
      (indirect : newHead.previous ≠ s.head.id)
      (fetched : s.forkDb.fetchBranchFrom newHead.id s.head.id = .ok (newBranch, []))
      (throws : firstThrow env (statusIn s.forkDb) s.db.state newBranch.reverse ≠ none) :
      SwitchOutcome env s newHead (.error ⟨.fault, "back() of an empty branch"⟩ s')

section

variable {states : List χ} {failure : ApplyThrow}
  (throws : Throws env s newHead newBranch oldBranch common older block states failure)

include throws

/-- After a failed switch the invariant holds without the block that threw. -/
theorem Throws.synced_pruned {marked : ForkDatabase} (synced : Synced env s)
    (replays : Replays env) (isPruned : Throws.Pruned s older block marked pruned) :
    Synced env { s with forkDb := pruned } := by
  have tree := synced.ranked.tree
  have path := throws.path.2
  have below := synced.rewind throws.forks.has throws.forks.oldPath
  have markedValid : marked.isValid s.head.id = true :=
    (isPruned.all.isValid_iff tree (path.found s.forkDb.keyed)).mpr (.inl synced.headValid)
  have kept : ¬ Reach marked.index block.id s.head.id := by
    intro reach
    rw [isPruned.ranked.not_valid_of_reach isPruned.unvalidated reach] at markedValid
    cases markedValid
  have branch : pruned.branch s.head.id = s.forkDb.branch s.head.id := by
    rw [isPruned.removed.branch_eq isPruned.ranked.tree (isPruned.all.has_iff.mpr synced.headHas) kept,
      isPruned.all.branch_eq]
  refine ⟨synced.idle, synced.mode, isPruned.removed.ranked isPruned.ranked isPruned.unvalidated,
    isPruned.has_of_valid synced.headHas markedValid,
    isPruned.removed.isValid_of_isValid isPruned.ranked isPruned.unvalidated markedValid, ?_,
    synced.stored.trans branch.symm⟩
  obtain ⟨bottom, allStates, executed⟩ := synced.executed
  obtain ⟨_, oldStates, -, lower, -⟩ := executed.rewind tree throws.forks.has throws.forks.oldPath
  -- What was marked on the way up can be executed as well.
  have complete := lower.applies_complete tree throws.forks.has path replays throws.applies
  have upper := lower.ascend tree throws.forks.has path isPruned.all complete
  refine ⟨bottom, allStates, ?_, ?_, fun entry member validated => ?_⟩
  · change Applies env _ bottom (pruned.branch s.head.id) allStates
    rw [branch]
    exact executed.head
  · change s.db = (⟨bottom, [], pruned.root.blockNum⟩ : UndoStack χ).pushes allStates
    rw [isPruned.removed.root, isPruned.all.root]
    exact executed.db
  · obtain ⟨before, notReach⟩ := (isPruned.removed.entries entry).mp member
    change ∃ others, Applies env _ bottom (pruned.branch entry.block.id) others
    rw [isPruned.removed.branch_eq isPruned.ranked.tree (.inr (getBlock_of_mem before)) notReach]
    exact upper.others entry before validated

theorem Throws.reach : Reach s.forkDb.index block.id newHead.id := by
  obtain ⟨newer, split⟩ := throws.split
  have path := throws.forks.newPath
  rw [split] at path
  obtain ⟨middle, upper, lower⟩ := path.split
  have start := path_headD lower
  change block.id = middle at start
  rw [← start] at upper
  exact reach_of_path upper

theorem Throws.restored_eq (synced : Synced env s) (notStored : failure.stored = false) :
    Throws.restored s common oldBranch pruned block failure = { s with forkDb := pruned } := by
  have stored : oldBranch ++ (if failure.stored then block :: s.forkDb.branch common.id
      else s.forkDb.branch common.id) = s.reversibleBlocks := by
    rw [notStored, if_neg Bool.false_ne_true, synced.stored,
      synced.ranked.tree.branch_of_path throws.forks.has throws.forks.oldPath]
  unfold Throws.restored Throws.atFork afterThrow rewound
  dsimp only
  rw [stored]

end

theorem afterThrow_of_abort {failure : ApplyThrow} (idle : s.pending = none)
    (aborted : failure.aborted = true) (notStored : failure.stored = false) :
    afterThrow s block failure = s := by
  unfold afterThrow
  rw [aborted, notStored, if_pos rfl, if_neg Bool.false_ne_true, ← idle]

section

variable (quiet : Quiet env) (replays : Replays env) (synced : Synced env s)

include quiet replays synced

theorem maybeSwitchForks_of_direct (found : s.forkDb.getBlock newHead.id = some newHead)
    (direct : newHead.previous = s.head.id) :
    SwitchOutcome env s newHead (maybeSwitchForks env newHead .complete s) := by
  have nilPath : blockLinkage.Path s.forkDb.getBlock newHead.previous [] s.head.id :=
    Linkage.Path.nil_iff.mpr direct
  have path : blockLinkage.Path s.forkDb.getBlock newHead.id [newHead] s.head.id :=
    .cons found nilPath
  obtain ⟨ready, vacant⟩ := synced.ready direct
  unfold maybeSwitchForks
  rw [get_bind, if_pos direct]
  cases outcome : applyOutcome env .complete s.db.state newHead with
  | ok session =>
    obtain ⟨forkDb, marked, advanced⟩ := advanceHead_of_ok ready vacant found outcome
    rw [bind_of_ok (attempt_of_ok advanced)]
    have all : MarkedAll s.forkDb [newHead] forkDb := .cons .nil marked
    exact .switches ⟨synced.ascend all path (.cons .nil outcome), rfl, rfl, [newHead], s.head.id,
      path, synced.headValid, all⟩
  | error failure =>
    obtain ⟨isFc, aborted, notStored, fromExec⟩ := quiet.failure outcome
    have threw := advanceHead_of_error ready vacant outcome
    rw [afterThrow_of_abort synced.idle aborted notStored] at threw
    have unvalidated : s.forkDb.isValid newHead.id = false :=
      synced.not_valid_of_throw replays (fun _ => .inl rfl) found nilPath .nil outcome
    obtain ⟨newBranch, oldBranch, common, forks⟩ := synced.forks (.inr found)
    obtain ⟨rfl, rfl⟩ := forks.direct found direct
    obtain rfl := synced.ranked.tree.has_unique synced.headHas forks.has
      (Linkage.Path.nil_iff.mp forks.oldPath)
    have throws : Throws env s newHead [newHead] [] s.head [] newHead [] failure := by
      refine ⟨forks, ⟨[], rfl⟩, .nil, ?_⟩
      have status : statusIn s.forkDb newHead = .complete := by
        unfold statusIn
        rw [unvalidated, if_neg Bool.false_ne_true]
      rw [status, synced.rewound_nil]
      exact outcome
    obtain ⟨pruned, ran, isPruned⟩ := throws.exists_pruned synced replays .nil
    rw [bind_of_ok (attempt_of_error threw isFc)]
    dsimp only
    rw [bind_of_ok (onForkDb_of_ok ran)]
    exact .fails isFc fromExec ⟨throws.synced_pruned synced replays isPruned,
      [], newHead, _, _, path, synced.headValid, .self, isPruned⟩

theorem maybeSwitchForks_outcome (newHas : s.forkDb.Has newHead) :
    SwitchOutcome env s newHead (maybeSwitchForks env newHead .complete s) := by
  by_cases direct : newHead.previous = s.head.id
  · refine maybeSwitchForks_of_direct quiet replays synced (newHas.resolve_left fun isRoot => ?_) direct
    have level := num_of_previous direct.symm
    have above := (synced.ranked.tree.branch_path synced.headHas)
    have := path_num_eq above
    rw [isRoot] at level
    omega
  by_cases same : newHead.id = s.head.id
  · have returns : maybeSwitchForks env newHead .complete s = .ok () s := by
      unfold maybeSwitchForks
      rw [get_bind, if_neg direct, if_neg (not_not.mpr same)]
      rfl
    rw [returns]
    exact .stays same
  have called : maybeSwitchForks env newHead .complete s =
      (switchForks env newHead >>= fun _ => logIrreversible env) s := by
    unfold maybeSwitchForks
    rw [get_bind, if_neg direct, if_pos same]
  obtain ⟨newBranch, oldBranch, common, forks⟩ := synced.forks newHas
  have below := synced.rewind forks.has forks.oldPath
  cases first : firstThrow env (statusIn s.forkDb) (rewound s common oldBranch).db.state
      newBranch.reverse with
  | none =>
    obtain ⟨states, applies⟩ := applies_of_firstThrow first
    obtain ⟨forkDb, all, ran⟩ := applyBranch_of_applies (below.isOpen newBranch.length) le_rfl
      below.ranked.tree forks.newPath applies
    have switched : switchForks env newHead s =
        .ok () (ascended (rewound s common oldBranch) newBranch states forkDb) := by
      have loop := ran oldBranch 0 []
      rw [List.append_nil] at loop
      rw [synced.switchForks_eq forks, loop]
      rfl
    have top : newBranch.headD common = newHead :=
      synced.ranked.tree.has_unique (has_headD forks.has forks.newPath) newHas
        (path_headD forks.newPath)
    obtain ⟨bottom, allStates, executed⟩ := below.executed
    have complete := executed.applies_complete below.ranked.tree below.headHas forks.newPath
      replays applies
    rw [called, bind_of_ok switched]
    exact .switches ⟨below.ascend all forks.newPath complete, top, rfl, newBranch, common.id,
      forks.newPath, below.headValid, all⟩
  | some throw =>
    obtain ⟨block, failure⟩ := throw
    obtain ⟨newer, older, states, split, applies, threw⟩ := exists_of_firstThrow first
    have throws : Throws env s newHead newBranch oldBranch common older block states failure :=
      ⟨forks, ⟨newer, split⟩, applies, threw⟩
    obtain ⟨isFc, aborted, notStored, fromExec⟩ := quiet.failure threw
    obtain ⟨marked, pruned, isPruned, ran⟩ := throws.switchForks_of_fc synced replays isFc
    by_cases isEmpty : oldBranch = []
    · subst isEmpty
      rw [if_pos rfl] at ran
      rw [called, bind_of_error ran]
      obtain rfl := synced.ranked.tree.has_unique synced.headHas forks.has
        (Linkage.Path.nil_iff.mp forks.oldPath)
      rw [synced.rewound_nil] at first
      exact .faults direct forks.fetched (by simp [first])
    · have again := throws.reapplyBlocks_restores synced replays isPruned aborted
        (by simp [notStored])
      rw [if_neg isEmpty, bind_of_ok again, throws.restored_eq synced notStored] at ran
      have threw : switchForks env newHead s = .error failure.thrown { s with forkDb := pruned } := ran
      rw [called, bind_of_error threw]
      exact .fails isFc fromExec ⟨throws.synced_pruned synced replays isPruned, older, block,
        marked, common.id, .cons throws.path.1 throws.path.2, below.headValid, throws.reach, isPruned⟩

end

theorem Switched.root {middle : ControllerState χ} (switched : Switched env s newHead middle) :
    middle.forkDb.root = s.forkDb.root := by
  obtain ⟨_, _, -, -, all⟩ := switched.branch
  exact all.root

/-- After a switch to the pending head both heads are that block. -/
theorem Switched.forkHead {middle : ControllerState χ} (ranked : s.forkDb.Ranked)
    (switched : Switched env s s.forkDb.pendingHead middle) :
    middle.forkDb.head = s.forkDb.pendingHead := by
  obtain ⟨newBranch, top, path, topValid, all⟩ := switched.branch
  rcases s.forkDb.pendingHead_cases.1 with same | ⟨member, preferred⟩
  · rw [same] at path ⊢
    exact all.head_of_valid ranked.tree (path.found s.forkDb.keyed)
      (ranked.valid_of_path path ranked.headValid).2
  · cases path with
    | nil =>
      rw [isValid_of_mem member] at topValid
      cases topValid
    | @cons _ _ node older found rest =>
      have isNode : node = s.forkDb.pendingHead :=
        Option.some_inj.mp (found.symm.trans (getBlock_of_mem member))
      subst isNode
      refine all.head_eq ranked (.cons found rest) topValid preferred fun lower lowerMem => ?_
      refine ranked.pendingHead_preferred preferred (rest.found s.forkDb.keyed lower lowerMem) ?_
      have le := rest.generation_le s.forkDb.keyed lowerMem
      change BlockHeader.numFromId lower.id ≤ BlockHeader.numFromId (BlockState.previous _) at le
      rw [lower.idNum] at le
      have own := s.forkDb.pendingHead.previousNum
      omega

/-! ### `push_block` -/

theorem Synced.add (synced : Synced env s) (added : Added s.forkDb forkDb block) :
    Synced env { s with forkDb } where
  idle := synced.idle
  mode := synced.mode
  ranked := added.ranked synced.ranked
  headHas := added.has_of_has synced.headHas
  headValid := added.isValid_of_isValid synced.ranked.tree synced.headValid
  executed := by
    obtain ⟨bottom, states, executed⟩ := synced.executed
    have tree := synced.ranked.tree
    refine ⟨bottom, states, ?_, ?_, fun entry member validated => ?_⟩
    · change Applies env _ bottom (forkDb.branch s.head.id) states
      rw [added.branch_eq tree synced.headHas]
      exact executed.head
    · change s.db = (⟨bottom, [], forkDb.root.blockNum⟩ : UndoStack χ).pushes states
      rw [added.root]
      exact executed.db
    · have before := added.mem_of_validated member validated
      change ∃ others, Applies env _ bottom (forkDb.branch entry.block.id) others
      rw [added.branch_eq tree (.inr (getBlock_of_mem before))]
      exact executed.others entry before validated
  stored := synced.stored.trans (added.branch_eq synced.ranked.tree synced.headHas).symm

theorem Logged.congr {s' : ControllerState χ} (logged : Logged s) (blog : s'.blog = s.blog)
    (root : s'.forkDb.root = s.forkDb.root) : Logged s' := by
  constructor
  case numbered => rw [blog]; exact logged.numbered
  case linked => rw [blog]; exact logged.linked
  case upToRoot => rw [blog, root]; exact logged.upToRoot

/-- A push is rejected because of the block: its construction, adding it to the fork
database or the execution of a block of its branch threw. -/
def Invalid (env : Environment χ) (s : ControllerState χ) (future : Checked BlockState)
    (thrown : ChainException) : Prop :=
  ∃ cause, thrown = rethrown env cause ∧ (future = .error cause ∨
    (∃ block, future = .ok block ∧ ForkDatabase.add block false s.forkDb = .error cause s.forkDb) ∨
      FromExec env cause)

inductive PushOutcome (env : Environment χ) (s : ControllerState χ)
    (future : Checked BlockState) :
    EStateM.Result ChainException (ControllerState χ) Unit → Prop where
  | rejected {thrown : ChainException} (invalid : Invalid env s future thrown) :
      PushOutcome env s future (.error thrown s)
  | stays {block : BlockState} {forkDb : ForkDatabase} (added : Added s.forkDb forkDb block)
      (same : forkDb.pendingHead.id = s.head.id) : PushOutcome env s future (.ok () { s with forkDb })
  | switches {block : BlockState} {forkDb : ForkDatabase} {middle final : ControllerState χ}
      (added : Added s.forkDb forkDb block)
      (switched : Switched env { s with forkDb } forkDb.pendingHead middle)
      (settled : Settled middle final) : PushOutcome env s future (.ok () final)
  | fails {block : BlockState} {forkDb pruned : ForkDatabase} {thrown : ChainException}
      (added : Added s.forkDb forkDb block) (invalid : Invalid env s future thrown)
      (failed : SwitchFailed env { s with forkDb } forkDb.pendingHead pruned) :
      PushOutcome env s future (.error thrown { s with forkDb := pruned })
  | faults {block : BlockState} {forkDb : ForkDatabase} {newBranch : List BlockState}
      {s' : ControllerState χ} (isFuture : future = .ok block)
      (added : ForkDatabase.add block false s.forkDb = .ok () forkDb)
      (indirect : forkDb.pendingHead.previous ≠ s.head.id)
      (fetched : forkDb.fetchBranchFrom forkDb.pendingHead.id s.head.id = .ok (newBranch, []))
      (throws : firstThrow env (statusIn forkDb) s.db.state newBranch.reverse ≠ none) :
      PushOutcome env s future (.error ⟨.fault, "back() of an empty branch"⟩ s')

theorem pushBlock_of_added (quiet : Quiet env) (synced : Synced env s)
    (ran : ForkDatabase.add block false s.forkDb = .ok () forkDb) :
    pushBlock env (.ok block) s =
      captureAndRethrow env (maybeSwitchForks env forkDb.pendingHead .complete) { s with forkDb } := by
  unfold pushBlock
  rw [get_bind, bind_of_ok (assert_of_true (by rw [synced.idle]; rfl))]
  refine tryCatch_congr ?_
  dsimp only
  rw [bind_of_ok (emit_of_none (quiet.signals _ _)), bind_of_ok (onForkDb_of_ok ran),
    bind_of_ok (emit_of_none (quiet.signals _ _)), get_bind]
  exact congrFun (if_pos synced.mode) _

theorem pushBlock_outcome (quiet : Quiet env) (replays : Replays env) (synced : Synced env s)
    (logged : Logged s) (future : Checked BlockState) :
    PushOutcome env s future (pushBlock env future s) := by
  have idle : s.pending.isNone = true := by rw [synced.idle]; rfl
  cases future with
  | error thrown =>
    have ran : pushBlock env (.error thrown) s = .error (rethrown env thrown) s := by
      unfold pushBlock
      rw [get_bind, bind_of_ok (assert_of_true idle)]
      exact captureAndRethrow_of_error rfl
    rw [ran]
    exact .rejected ⟨thrown, rfl, .inl rfl⟩
  | ok block =>
    rcases add_cases s.forkDb block with ⟨thrown, -, refused⟩ | ⟨forkDb, ran, added⟩
    · have threw : pushBlock env (.ok block) s = .error (rethrown env thrown) s := by
        unfold pushBlock
        rw [get_bind, bind_of_ok (assert_of_true idle)]
        refine captureAndRethrow_of_error ?_
        dsimp only
        rw [bind_of_ok (emit_of_none (quiet.signals _ _)), bind_of_error (onForkDb_of_error refused)]
      rw [threw]
      exact .rejected ⟨thrown, rfl, .inr (.inl ⟨block, rfl, refused⟩)⟩
    · have grown := synced.add added
      have outcome := maybeSwitchForks_outcome quiet replays grown grown.ranked.has_pendingHead
      rw [pushBlock_of_added quiet synced ran]
      generalize result : maybeSwitchForks env forkDb.pendingHead .complete { s with forkDb } =
        switchResult at outcome
      cases outcome with
      | stays same =>
        rw [captureAndRethrow_of_ok result]
        exact .stays added same
      | @switches middle switched =>
        have sameHead : middle.forkDb.head = middle.head :=
          (switched.forkHead grown.ranked).trans switched.head.symm
        obtain ⟨final, settled, logs⟩ := logIrreversible_spec quiet switched.synced.mode
          switched.synced.ranked (logged.congr switched.blog (switched.root.trans added.root))
          sameHead
        rw [captureAndRethrow_of_ok (result.trans logs)]
        exact .switches added switched settled
      | fails isFc fromExec failed =>
        rw [captureAndRethrow_of_error result]
        exact .fails added ⟨_, rfl, .inr (.inr fromExec)⟩ failed
      | faults indirect fetched throws =>
        rw [captureAndRethrow_of_error result]
        exact .faults rfl ran indirect fetched throws

/-! ### `commit_block` -/

/-- The ways in which the step of `commit_block` with the fork database ends. -/
inductive EnterOutcome (env : Environment χ) (s : ControllerState χ) (block : BlockState) :
    EStateM.Result ChainException (ControllerState χ) Unit → Prop where
  | refused {thrown : ChainException}
      (threw : ForkDatabase.add block false s.forkDb = .error thrown s.forkDb) :
      EnterOutcome env s block (.error thrown s)
  | signalled {grown forkDb : ForkDatabase} {thrown : ChainException}
      (added : Added s.forkDb grown block)
      (marked : Marked grown forkDb block)
      (signal : passedOn env .acceptedBlockHeader block = some thrown) :
      EnterOutcome env s block (.error thrown { s with forkDb })
  | notHead {grown forkDb : ForkDatabase} {thrown : ChainException}
      (added : Added s.forkDb grown block)
      (marked : Marked grown forkDb block)
      (quiet : passedOn env .acceptedBlockHeader block = none) (other : block ≠ forkDb.head) :
      EnterOutcome env s block (.error thrown { s with forkDb, head := forkDb.head })
  | entered {grown forkDb : ForkDatabase} (added : Added s.forkDb grown block)
      (marked : Marked grown forkDb block) (isHead : forkDb.head = block) :
      EnterOutcome env s block (.ok () { s with forkDb, head := block })

theorem enterForkDb_outcome (env : Environment χ) (s : ControllerState χ) (block : BlockState) :
    EnterOutcome env s block (enterForkDb env block s) := by
  unfold enterForkDb
  rcases add_cases s.forkDb block with ⟨thrown, -, refused⟩ | ⟨grown, ran, added⟩
  · rw [bind_of_error (onForkDb_of_error refused)]
    exact .refused refused
  obtain ⟨forkDb, marks, marked⟩ := markValid_spec added.getBlock_new
  rw [bind_of_ok (onForkDb_of_ok ran), bind_of_ok (onForkDb_of_ok (s := { s with forkDb := grown }) marks)]
  cases signal : passedOn env .acceptedBlockHeader block with
  | some thrown =>
    rw [bind_of_error (emit_of_some signal)]
    exact .signalled added marked signal
  | none =>
    rw [bind_of_ok (emit_of_none signal), modify_bind, get_bind]
    by_cases isHead : block = forkDb.head
    · have entered : EnterOutcome env s block (.ok () { s with forkDb, head := block }) :=
        .entered added marked isHead.symm
      have same : ({ s with forkDb, head := forkDb.head } : ControllerState χ) =
          { s with forkDb, head := block } := by rw [← isHead]
      rw [assert_of_true isHead]
      exact same ▸ entered
    · rw [assert_of_false isHead]
      exact .notHead added marked signal isHead

def completing (s : ControllerState χ) (block : BlockState) (session : χ) : ControllerState χ :=
  { s with pending := some (.completed block session) }

theorem commitBlock_completing {session : χ} (mode : s.readMode ≠ .irreversible) :
    commitBlock env (completing s block session) =
      (abortingOn (fun _ => true) (do
        enterForkDb env block
        createReversible env block
        logIrreversible env
        emit env .acceptedBlock block) >>= fun _ => pushSession session) (completing s block session) := by
  unfold commitBlock commitWith
  rw [get_bind]
  change (abortingOn (fun _ => true) (enterForkDb env block >>= fun _ =>
    if s.readMode ≠ .irreversible then _ else _) >>= _) _ = _
  rw [if_pos mode]

inductive Committed (s : ControllerState χ) (block : BlockState) (session : χ)
    (s' : ControllerState χ) : Prop where
  | intro {grown forkDb : ForkDatabase} (added : Added s.forkDb grown block)
      (marked : Marked grown forkDb block) (isHead : forkDb.head = block)
      (settled : Settled (ascended { s with forkDb := grown } [block] [session] forkDb) s')

theorem commitBlock_committed {session : χ} {s' : ControllerState χ} (quiet : Quiet env)
    (synced : Synced env s) (logged : Logged s) (onHead : block.previous = s.head.id)
    (ran : commitBlock env (completing s block session) = .ok () s') :
    Committed s block session s' := by
  rw [commitBlock_completing synced.mode] at ran
  obtain ⟨⟨⟩, middle, tried, pushed⟩ := of_bind_ok ran
  have outcome := enterForkDb_outcome env (completing s block session) block
  generalize enters : enterForkDb env block (completing s block session) = result at outcome
  cases outcome with
  | refused =>
    rw [abortingOn_of_error (bind_of_error enters)] at tried
    cases tried
  | signalled =>
    rw [abortingOn_of_error (bind_of_error enters)] at tried
    cases tried
  | notHead =>
    rw [abortingOn_of_error (bind_of_error enters)] at tried
    cases tried
  | @entered grown forkDb added marked isHead =>
    obtain ⟨ready, vacant⟩ := synced.ready onHead
    have grownSynced := synced.add added
    have headValid : grown.isValid block.previous = true := by
      rw [onHead]
      exact grownSynced.headValid
    have ranked := marked.ranked grownSynced.ranked added.getBlock_new headValid
    have creates := createReversible_of_vacant
      (s := { completing s block session with forkDb, head := block }) vacant (quiet.create block)
    obtain ⟨final, settled, logs⟩ := logIrreversible_spec (s := { completing s block session with
      forkDb, head := block, reversibleBlocks := block :: s.reversibleBlocks }) quiet synced.mode
      ranked (logged.congr rfl (marked.root.trans added.root)) isHead
    have body : (do
        enterForkDb env block
        createReversible env block
        logIrreversible env
        emit env .acceptedBlock block : ControllerM χ Unit) (completing s block session) =
          .ok () final := by
      refine (bind_of_ok enters).trans ((bind_of_ok creates).trans ((bind_of_ok logs).trans ?_))
      exact emit_of_none (quiet.signals _ _)
    rw [abortingOn_of_ok body] at tried
    obtain ⟨-, rfl⟩ := EStateM.Result.ok.inj tried
    obtain ⟨-, rfl⟩ := EStateM.Result.ok.inj pushed
    have level := num_of_previous onHead.symm
    have later := settled.push session (by
      change s.db.revision + 1 = block.blockNum
      rw [ready.onPar, level])
    have same : ascended { s with forkDb := grown } [block] [session] forkDb =
        { s with
          forkDb, head := block, reversibleBlocks := block :: s.reversibleBlocks,
          db := s.db.push session, pending := none } := by
      unfold ascended
      rw [← synced.idle]
      rfl
    refine .intro added marked isHead ?_
    rw [same]
    exact later

theorem Committed.synced {session : χ} {s' : ControllerState χ} (committed : Committed s block session s')
    (quiet : Quiet env) (synced : Synced env s) (onHead : block.previous = s.head.id)
    (started : env.start .complete s.db.state block = none)
    (executed : env.exec .complete s.db.state block = .ok session) : Synced env s' := by
  obtain ⟨added, marked, isHead, settled⟩ := committed
  have grown := synced.add added
  have path : blockLinkage.Path _ block.id [block] s.head.id :=
    .cons added.getBlock_new (Linkage.Path.nil_iff.mpr onHead)
  have outcome : applyOutcome env .complete s.db.state block = .ok session := by
    unfold applyOutcome
    rw [started, executed, quiet.create, quiet.signals]
  exact settled.synced (grown.ascend (.cons .nil marked) path (.cons .nil outcome)) isHead

/-! ### Calls -/

/-- A push that does not reach `back()` of an empty branch, which is not defined: if it makes the
controller switch to a block that is built on its head, but not directly, then no block of the new
branch throws. -/
def Defined (env : Environment χ) (s : ControllerState χ) (future : Checked BlockState) : Prop :=
  ∀ block forkDb newBranch, future = .ok block →
    ForkDatabase.add block false s.forkDb = .ok () forkDb →
      forkDb.pendingHead.previous ≠ s.head.id →
        forkDb.fetchBranchFrom forkDb.pendingHead.id s.head.id = .ok (newBranch, []) →
          firstThrow env (statusIn forkDb) s.db.state newBranch.reverse = none

/-- A call from outside: a push that returns or throws and whose behaviour is defined, or the commit of
a block that this node produced on its head. The session of a produced block is what starting and
executing the block leads to. -/
inductive Call (env : Environment χ) (s : ControllerState χ) : ControllerState χ → Prop where
  | pushed {future : Checked BlockState} {s' : ControllerState χ}
      (ran : pushBlock env future s = .ok () s') : Call env s s'
  | threw {future : Checked BlockState} {thrown : ChainException}
      {s' : ControllerState χ} (isDefined : Defined env s future)
      (ran : pushBlock env future s = .error thrown s') : Call env s s'
  | committed {block : BlockState} {session : χ} {s' : ControllerState χ}
      (onHead : block.previous = s.head.id)
      (started : env.start .complete s.db.state block = none)
      (executed : env.exec .complete s.db.state block = .ok session)
      (ran : commitBlock env (completing s block session) = .ok () s') : Call env s s'

inductive Change (env : Environment χ) (s : ControllerState χ) : ControllerState χ → Prop where
  | none : Change env s s
  | stays {block : BlockState} {forkDb : ForkDatabase} (added : Added s.forkDb forkDb block)
      (same : forkDb.pendingHead.id = s.head.id) : Change env s { s with forkDb }
  | switches {block : BlockState} {forkDb : ForkDatabase} {middle final : ControllerState χ}
      (added : Added s.forkDb forkDb block)
      (switched : Switched env { s with forkDb } forkDb.pendingHead middle)
      (settled : Settled middle final) : Change env s final
  | fails {block : BlockState} {forkDb pruned : ForkDatabase} (added : Added s.forkDb forkDb block)
      (failed : SwitchFailed env { s with forkDb } forkDb.pendingHead pruned) : Change env s { s with forkDb := pruned }
  | commits {block : BlockState} {session : χ} {final : ControllerState χ}
      (onHead : block.previous = s.head.id)
      (started : env.start .complete s.db.state block = none)
      (executed : env.exec .complete s.db.state block = .ok session)
      (committed : Committed s block session final) : Change env s final

theorem Call.change {s' : ControllerState χ} (call : Call env s s') (quiet : Quiet env)
    (replays : Replays env) (synced : Synced env s) (logged : Logged s) : Change env s s' := by
  cases call with
  | @pushed future _ ran =>
    have outcome := pushBlock_outcome quiet replays synced logged future
    rw [ran] at outcome
    cases outcome with
    | stays added same => exact .stays added same
    | switches added switched settled => exact .switches added switched settled
  | @threw future _ _ isDefined ran =>
    have outcome := pushBlock_outcome quiet replays synced logged future
    rw [ran] at outcome
    cases outcome with
    | rejected => exact .none
    | fails added _ failed => exact .fails added failed
    | faults isFuture added indirect fetched throws =>
      exact absurd (isDefined _ _ _ isFuture added indirect fetched) throws
  | committed onHead started executed ran =>
    exact .commits onHead started executed (commitBlock_committed quiet synced logged onHead ran)

namespace Change

variable {s' : ControllerState χ}

section

variable (change : Change env s s')

include change

theorem synced (quiet : Quiet env) (synced : Synced env s) : Synced env s' := by
  cases change with
  | none => exact synced
  | stays added => exact synced.add added
  | switches added switched settled =>
    refine settled.synced switched.synced ?_
    exact (switched.forkHead (synced.add added).ranked).trans switched.head.symm
  | fails _ failed => exact failed.synced
  | commits onHead started executed committed =>
    exact committed.synced quiet synced onHead started executed

theorem logged (logged : Logged s) : Logged s' := by
  cases change with
  | none => exact logged
  | stays added => exact logged.congr rfl added.root
  | switches added switched settled =>
    exact settled.logged (logged.congr switched.blog (switched.root.trans added.root))
  | fails added failed =>
    obtain ⟨_, _, _, _, -, -, -, pruned⟩ := failed.branch
    exact logged.congr rfl (pruned.removed.root.trans (pruned.all.root.trans added.root))
  | commits _ _ _ committed =>
    obtain ⟨added, marked, -, settled⟩ := committed
    exact settled.logged (logged.congr rfl (marked.root.trans added.root))

theorem grows : s'.blog.firstBlockNum = s.blog.firstBlockNum ∧
    s.blog.blocks <+: s'.blog.blocks := by
  cases change with
  | switches _ switched settled =>
    have grows := settled.grows
    rwa [switched.blog] at grows
  | commits _ _ _ committed =>
    obtain ⟨-, -, -, settled⟩ := committed
    exact settled.grows
  | _ => exact ⟨rfl, List.prefix_rfl⟩

end

end Change

end ControllerM

end CodexRelay.Chain
