import CodexRelay.Chain.Controller.AtomicCommit

/-!
Contract: `log_irreversible` when one of its steps throws an `fc::exception`.

The exception handler advances the root of the fork database to `root_id`, which the loop sets to a
block before `append` has written it. When `append` fails, the root is one block ahead of the log.

Owns:
- `Logs`, what the loop has done before the step that throws, and `FailsAt`, where it throws;
- when the root is the head of the log again.
-/

namespace CodexRelay.Chain

open Library List

variable {target : BlockState}

namespace ForkDatabase

variable {db db' : ForkDatabase} {newRoot root : BlockState}

/-! ### The root after `advance_root` -/

theorem forM_remove_keeps_root (ids : List BlockId) (isRoot : db.root = root) :
    (finalState (ids.forM remove db)).root = root := by
  induction ids generalizing db with
  | nil => exact isRoot
  | cons id rest ih =>
    rw [forM_cons]
    apply finalState_bind (fun db : ForkDatabase => db.root = root)
    · rcases remove_cases db id with ⟨thrown, threw, -⟩ | ⟨db', ran, -, removed⟩
      · rw [threw]
        exact isRoot
      · rw [ran]
        exact removed.root.trans isRoot
    · intro _ db' kept
      exact ih kept

/-- `advance_root` succeeds exactly when the head is built on the new root, and keeps the root when
it throws. -/
theorem Tree.advanceRoot_root (tree : db.Tree) (headHas : db.Has db.head)
    (found : db.getBlock newRoot.id = some newRoot) (valid : db.isValid newRoot.id = true) :
    (Reach db.index newRoot.id db.head.id → (finalState (advanceRoot newRoot.id db)).root = newRoot) ∧
      (¬ Reach db.index newRoot.id db.head.id →
        (finalState (advanceRoot newRoot.id db)).root = db.root) := by
  constructor
  · intro reach
    obtain ⟨db', ran, advanced⟩ := tree.advanceRoot_spec found valid reach
    rw [ran]
    exact advanced.root
  · intro unreached
    rw [tree.advanceRoot_eq found valid]
    have kept := @forM_remove_keeps_root { db with index := db.index.erase [newRoot.id] } db.root
      ((db.branch newRoot.id).map (·.previous)) rfl
    cases ran : ((db.branch newRoot.id).map (·.previous)).forM remove
        { db with index := db.index.erase [newRoot.id] } with
    | ok _ stage =>
      have succeeded : advanceRoot newRoot.id db = .ok () { stage with root := newRoot } := by
        rw [tree.advanceRoot_eq found valid, bind_of_ok ran]
        rfl
      obtain ⟨reached, reachedFound, -, reach, advanced⟩ := tree.advanceRoot_of_ok headHas succeeded
      obtain rfl : newRoot = reached := advanced.root
      exact absurd reach unreached
    | error thrown stage =>
      rw [bind_of_error ran]
      rw [ran] at kept
      exact kept

end ForkDatabase

namespace ControllerM

variable {χ : Type} {env : Environment χ} {s s' s₁ s₂ : ControllerState χ} {block : BlockState}
  {thrown : ChainException}

/-! ### Applying a block -/

/-- The fork database, the log and the read mode are those of `base`. -/
def SameStores (base s : ControllerState χ) : Prop :=
  s.forkDb = base.forkDb ∧ s.blog = base.blog ∧ s.readMode = base.readMode

theorem assert_sameStores {test : Prop} [Decidable test] {code : ExceptionCode} {what : String}
    (same : SameStores s s₁) :
    SameStores s (finalState ((assert test code what : ControllerM χ Unit) s₁)) := by
  unfold assert
  split_ifs
  · exact same
  · exact same

theorem abortingOn_sameStores {caught : ChainException → Bool} {body : ControllerM χ Unit}
    (same : SameStores s (finalState (body s₁))) :
    SameStores s (finalState (abortingOn caught body s₁)) := by
  apply finalState_tryCatch (SameStores s) same
  intro thrown stopped kept
  split_ifs
  · exact kept
  · exact kept

theorem createReversible_sameStores (same : SameStores s s₁) :
    SameStores s (finalState (createReversible env block s₁)) := by
  unfold createReversible
  rw [get_bind]
  cases env.create block with
  | some => exact same
  | none =>
    dsimp only
    apply finalState_bind (SameStores s) (assert_sameStores same)
    intro _ _ _
    exact same

theorem commitWith_sameStores (same : SameStores s s₁) :
    SameStores s (finalState (commitWith env (fun _ => pure ()) (pure ()) s₁)) := by
  unfold commitWith
  rw [get_bind]
  cases s₁.pending with
  | none => exact same
  | some stage =>
    cases stage with
    | building => exact abortingOn_sameStores same
    | assembled => exact abortingOn_sameStores same
    | completed block session =>
      have emitted : ∀ {middle : ControllerState χ}, SameStores s middle →
          SameStores s (finalState (emit env .acceptedBlock block middle)) := by
        intro middle kept
        unfold emit
        cases passedOn env .acceptedBlock block with
        | none => exact kept
        | some => exact kept
      apply finalState_bind (SameStores s)
      · apply abortingOn_sameStores
        refine finalState_bind (SameStores s) ?_ ?_
        · exact same
        · intro _ middle kept
          dsimp only
          split_ifs
          · apply finalState_bind (SameStores s) (createReversible_sameStores kept)
            intro _ _ stored
            exact emitted stored
          · exact emitted kept
      · intro _ _ kept
        exact kept

theorem applyBlock_sameStores (status : BlockStatus) :
    SameStores s (finalState (applyBlock env block status s)) := by
  have same : SameStores s s := ⟨rfl, rfl, rfl⟩
  have started : SameStores s (finalState (startBlock env block status s)) := by
    unfold startBlock
    rw [get_bind]
    apply finalState_bind (SameStores s) (assert_sameStores same)
    intro _ _ kept
    apply abortingOn_sameStores
    apply finalState_bind (SameStores s) (assert_sameStores kept)
    intro _ _ _
    rw [set_bind]
    cases env.start status s.db.state block with
    | none => exact same
    | some => exact same
  apply finalState_tryCatch (SameStores s)
  · apply abortingOn_sameStores
    apply finalState_bind (SameStores s) started
    intro _ middle kept
    rw [get_bind]
    cases env.exec status middle.db.state block with
    | error thrown => exact kept
    | ok session =>
      dsimp only
      apply finalState_bind (SameStores s) (assert_sameStores kept)
      intro _ _ _
      rw [set_bind]
      exact commitWith_sameStores kept
  · intro _ _ kept
    exact kept

/-! ### The loop until it throws -/

/-- The loop has logged these blocks (newest first). -/
inductive Logs (env : Environment χ) (s : ControllerState χ) :
    List BlockState → ControllerState χ → Prop where
  | nil : Logs env s [] s
  | cons {older : List BlockState} {before made appended : ControllerState χ} {block : BlockState}
      (logs : Logs env s older before) (makes : makeIrreversible env block before = .ok () made)
      (appends : appendLog env block made = .ok () appended) :
      Logs env s (block :: older) { appended with
        reversibleBlocks := appended.reversibleBlocks.filter (block.blockNum < ·.blockNum) }

inductive LogStep where
  | apply
  | signal
  | commit
  | append
deriving DecidableEq

inductive FailsAt (env : Environment χ) (s : ControllerState χ) (block : BlockState)
    (thrown : ChainException) : LogStep → Prop where
  | apply {stopped : ControllerState χ} (mode : s.readMode = .irreversible)
      (throws : applyBlock env block .complete s = .error thrown stopped) :
      FailsAt env s block thrown .apply
  | signal {applied : ControllerState χ} (applies : applyIrreversible env block s = .ok () applied)
      (throws : passedOn env .irreversibleBlock block = some thrown) :
      FailsAt env s block thrown .signal
  | commit {applied : ControllerState χ} (applies : applyIrreversible env block s = .ok () applied)
      (emitted : passedOn env .irreversibleBlock block = none)
      (throws : env.commit block = some thrown) : FailsAt env s block thrown .commit
  | append {made stopped : ControllerState χ} (makes : makeIrreversible env block s = .ok () made)
      (throws : appendLog env block made = .error thrown stopped) :
      FailsAt env s block thrown .append

theorem logBlocks_of_logs {logged rest : List BlockState} {rootId : BlockId}
    (logs : Logs env s logged s₁) : logBlocks env rootId (logged.reverse ++ rest) s =
      logBlocks env ((logged.head?.map (·.id)).getD rootId) rest s₁ := by
  induction logs generalizing rest with
  | nil => rfl
  | @cons older before made appended block logs makes appends ih =>
    rw [reverse_cons, append_assoc, ih, singleton_append,
      logBlocks.eq_2, bind_of_ok (advancingRoot_of_ok makes),
      bind_of_ok (advancingRoot_of_ok appends), modify_bind]
    rfl

theorem appendLog_cases (env : Environment χ) (block : BlockState) (s : ControllerState χ) :
    (∃ thrown, appendLog env block s = .error thrown s) ∨
      appendLog env block s =
        .ok () { s with blog := { s.blog with blocks := s.blog.blocks ++ [block] } } := by
  by_cases position : s.blog.blocks.length + s.blog.firstBlockNum = block.blockNum
  · cases writes : env.append block with
    | some thrown =>
      refine .inl ⟨rethrown env thrown, captureAndRethrow_of_error ?_⟩
      rw [get_bind, bind_of_ok (assert_of_true position), writes]
      rfl
    | none =>
      refine .inr (captureAndRethrow_of_ok ?_)
      rw [get_bind, bind_of_ok (assert_of_true position), writes]
      rfl
  · refine .inl ⟨rethrown env ⟨.blockLogAppendFail,
      "Append to index file occuring at wrong position."⟩, captureAndRethrow_of_error ?_⟩
    rw [get_bind]
    exact bind_of_error (assert_of_false position)

def markedBlocks (mode : DbReadMode) (blocks : List BlockState) : List BlockState :=
  if mode = .irreversible then blocks else []

/-- What the loop has done to the stores: the log has grown, and blocks were marked. -/
structure Progress (s : ControllerState χ) (logged marked : List BlockState)
    (s₁ : ControllerState χ) : Prop where
  forkDb : ForkDatabase.MarkedAll s.forkDb (markedBlocks s.readMode marked) s₁.forkDb
  blog : s₁.blog = { s.blog with blocks := s.blog.blocks ++ logged.reverse }
  readMode : s₁.readMode = s.readMode

namespace Progress

variable {logged marked : List BlockState}

theorem init (s : ControllerState χ) : Progress s [] [] s where
  forkDb := by
    unfold markedBlocks
    split_ifs
    · exact .nil
    · exact .nil
  blog := by rw [reverse_nil, append_nil]
  readMode := rfl

section

variable (progress : Progress s logged marked s₁)

include progress

theorem same (same : SameStores s₁ s₂) : Progress s logged marked s₂ where
  forkDb := by
    rw [same.1]
    exact progress.forkDb
  blog := same.2.1.trans progress.blog
  readMode := same.2.2.trans progress.readMode

theorem apply (found : s.forkDb.getBlock block.id = some block)
    (applies : applyIrreversible env block s₁ = .ok () s₂) :
    Progress s logged (block :: marked) s₂ := by
  by_cases mode : s.readMode = .irreversible
  · unfold applyIrreversible at applies
    rw [get_bind, if_pos (progress.readMode.trans mode)] at applies
    obtain ⟨_, applied, ran, rest⟩ := of_bind_ok applies
    have stores : SameStores s₁ applied := by
      have kept := @applyBlock_sameStores _ env s₁ block .complete
      rw [ran] at kept
      exact kept
    have kept := progress.same stores
    have inside : applied.forkDb.getBlock block.id = some block := by
      rw [kept.forkDb.getBlock_eq]
      exact found
    obtain ⟨forkDb, ranMark, marks⟩ := ForkDatabase.markValid_spec inside
    rw [modify_bind, @onForkDb_of_ok _ { applied with head := block } _ _ ranMark] at rest
    obtain ⟨-, rfl⟩ := EStateM.Result.ok.inj rest
    have before := kept.forkDb
    unfold markedBlocks at before
    rw [if_pos mode] at before
    constructor
    · unfold markedBlocks
      rw [if_pos mode]
      exact .cons before marks
    · exact kept.blog
    · exact kept.readMode
  · rw [applyIrreversible_of_mode (by rwa [progress.readMode])] at applies
    obtain ⟨-, rfl⟩ := EStateM.Result.ok.inj applies
    have before := progress.forkDb
    unfold markedBlocks at before
    rw [if_neg mode] at before
    constructor
    · unfold markedBlocks
      rw [if_neg mode]
      exact before
    · exact progress.blog
    · exact progress.readMode

theorem appended (appends : appendLog env block s₁ = .ok () s₂)
    : Progress s (block :: logged) marked s₂ := by
  rcases appendLog_cases env block s₁ with ⟨thrown, throws⟩ | ran
  · cases throws.symm.trans appends
  obtain ⟨-, rfl⟩ := EStateM.Result.ok.inj (ran.symm.trans appends)
  constructor
  · exact progress.forkDb
  · dsimp only
    rw [progress.blog, reverse_cons, append_assoc]
  · exact progress.readMode

end

end Progress

theorem makeIrreversible_of_ok (makes : makeIrreversible env block s = .ok () s') :
    ∃ applied, applyIrreversible env block s = .ok () applied ∧ SameStores applied s' := by
  obtain ⟨_, applied, applies, rest⟩ := of_bind_ok makes
  refine ⟨applied, applies, ?_⟩
  cases emitted : passedOn env .irreversibleBlock block with
  | some thrown =>
    rw [bind_of_error (emit_of_some emitted)] at rest
    cases rest
  | none =>
    rw [bind_of_ok (emit_of_none emitted)] at rest
    unfold commitDb at rest
    cases committed : env.commit block with
    | some thrown =>
      rw [committed] at rest
      cases rest
    | none =>
      rw [committed] at rest
      obtain ⟨-, rfl⟩ := EStateM.Result.ok.inj rest
      exact ⟨rfl, rfl, rfl⟩

theorem Logs.progress {logged : List BlockState} (logs : Logs env s logged s₁)
    (found : ∀ block ∈ logged, s.forkDb.getBlock block.id = some block) :
    Progress s logged logged s₁ := by
  induction logs with
  | nil => exact .init s
  | @cons older before made appended block logs makes appends ih =>
    obtain ⟨own, others⟩ := forall_mem_cons.mp found
    obtain ⟨applied, applies, same⟩ := makeIrreversible_of_ok makes
    have marked := (ih others).apply own applies
    exact ((marked.same same).appended appends).same ⟨rfl, rfl, rfl⟩

def LogStep.marked (block : BlockState) (logged : List BlockState) : LogStep → List BlockState
  | .apply => logged
  | _ => block :: logged

theorem FailsAt.stops {step : LogStep} {logged : List BlockState}
    (fails : FailsAt env s₁ block thrown step) (progress : Progress s logged logged s₁)
    (found : s.forkDb.getBlock block.id = some block) :
    step ≠ .append ∧ (∃ s₂, makeIrreversible env block s₁ = .error thrown s₂ ∧
        Progress s logged (step.marked block logged) s₂) ∨
      step = .append ∧ ∃ s₂, makeIrreversible env block s₁ = .ok () s₂ ∧
        appendLog env block s₂ = .error thrown s₂ ∧ Progress s logged (block :: logged) s₂ := by
  cases fails with
  | @apply stopped mode throws =>
    refine .inl ⟨by decide, stopped, bind_of_error ?_, progress.same ?_⟩
    · unfold applyIrreversible
      rw [get_bind, if_pos mode, bind_of_error throws]
    · have kept := @applyBlock_sameStores _ env s₁ block .complete
      rw [throws] at kept
      exact kept
  | @signal applied applies throws =>
    refine .inl ⟨by decide, applied, ?_, progress.apply found applies⟩
    unfold makeIrreversible
    rw [bind_of_ok applies, bind_of_error (emit_of_some throws)]
  | @commit applied applies emitted throws =>
    refine .inl ⟨by decide, applied, ?_, progress.apply found applies⟩
    unfold makeIrreversible
    rw [bind_of_ok applies, bind_of_ok (emit_of_none emitted)]
    unfold commitDb
    rw [throws]
    rfl
  | @append made stopped makes throws =>
    obtain ⟨applied, applies, same⟩ := makeIrreversible_of_ok makes
    refine .inr ⟨rfl, made, makes, ?_, (progress.apply found applies).same same⟩
    rcases appendLog_cases env block made with ⟨thrown', ran⟩ | ran
    · obtain ⟨rfl, -⟩ := EStateM.Result.error.inj (ran.symm.trans throws)
      exact ran
    · cases ran.symm.trans throws

/-! ### The handler -/

def advancedTo (rootId : BlockId) (forkDb : ForkDatabase) : ForkDatabase :=
  if rootId ≠ forkDb.root.id then finalState (ForkDatabase.advanceRoot rootId forkDb) else forkDb

theorem advancingRoot_of_fc (rootId : BlockId) {body : ControllerM χ Unit}
    (throws : body s = .error thrown s') (isFc : thrown.code.isFc = true) :
    ∃ thrown', advancingRoot rootId body s =
      .error thrown' { s' with forkDb := advancedTo rootId s'.forkDb } := by
  unfold advancingRoot advancedTo
  rw [bind_of_ok (attempt_of_error throws isFc)]
  dsimp only
  rw [get_bind]
  by_cases moved : rootId ≠ s'.forkDb.root.id
  · rw [if_pos moved, if_pos moved]
    cases advances : ForkDatabase.advanceRoot rootId s'.forkDb with
    | ok => exact ⟨thrown, bind_of_ok (onForkDb_of_ok advances)⟩
    | error thrown' => exact ⟨thrown', bind_of_error (onForkDb_of_error advances)⟩
  · rw [if_neg moved, if_neg moved]
    exact ⟨thrown, rfl⟩

theorem advancedTo_root {forkDb : ForkDatabase} (ranked : forkDb.Ranked) (has : forkDb.Has target)
    (valid : forkDb.isValid target.id = true) :
    (Reach forkDb.index target.id forkDb.head.id → (advancedTo target.id forkDb).root = target) ∧
      (¬ Reach forkDb.index target.id forkDb.head.id →
        (advancedTo target.id forkDb).root = forkDb.root) := by
  unfold advancedTo
  split_ifs with moved
  · rcases has with rfl | found
    · exact absurd rfl moved
    · exact ranked.tree.advanceRoot_root ranked.headHas found valid
  · exact ⟨fun _ => (ranked.tree.has_unique has (.inl rfl) (not_not.mp moved)).symm, fun _ => rfl⟩

/-- The log that has grown by some blocks is consecutive, and ends at the root exactly when the last
of them is the root. -/
theorem logged_iff {logged : List BlockState} {id : BlockId} (isLogged : Logged s)
    (path : blockLinkage.Path s.forkDb.getBlock id logged s.forkDb.root.id)
    (blog : s'.blog = { s.blog with blocks := s.blog.blocks ++ logged.reverse })
    (unique : s'.forkDb.root.blockNum = (logged.headD s.forkDb.root).blockNum →
      s'.forkDb.root = logged.headD s.forkDb.root) :
    Logged s' ↔ s'.forkDb.root = logged.headD s.forkDb.root := by
  constructor
  · intro isLogged'
    apply unique
    have length := isLogged.length_eq
    have length' := isLogged'.length_eq
    rw [blog] at length'
    dsimp only at length'
    rw [length_append, length_reverse] at length'
    have count : (logged.headD s.forkDb.root).blockNum = s.forkDb.root.blockNum + logged.length := by
      have fromHead := path
      rw [← ForkDatabase.path_headD path] at fromHead
      exact ForkDatabase.path_num_eq fromHead
    omega
  · intro isRoot
    constructor
    · intro index block position
      rw [blog] at position ⊢
      exact isLogged.numbered_append path position
    · rw [blog]
      exact isLogged.linked_append path
    · cases logged with
      | nil =>
        have same : s'.blog = s.blog := by
          rw [blog, reverse_nil, append_nil]
        rw [same, isRoot]
        exact isLogged.upToRoot
      | cons newest older =>
        refine .inl ⟨newest, ?_, by rw [isRoot]; rfl⟩
        unfold BlockLog.head
        rw [blog, reverse_cons, ← append_assoc]
        exact getLast?_concat

/-! ### The root and the log -/

/-- The head of the fork database after blocks (newest first) were logged. -/
def forkHeadAfter (s : ControllerState χ) (marked : List BlockState) : BlockState :=
  ForkDatabase.leader s.forkDb.head (markedBlocks s.readMode marked)

/-- When the root is the head of the log after a step has thrown: for a step before `append`, when
no block was logged or the head is built on the one that was logged last. For `append`, when no block
was logged and `advance_root` throws as well, since the head is not built on the new root. -/
def RootFollows (s : ControllerState χ) (block : BlockState) (logged : List BlockState)
    (step : LogStep) : Prop :=
  match step with
  | .append => logged = [] ∧
      ¬ Reach s.forkDb.index block.id (forkHeadAfter s (step.marked block logged)).id
  | _ => ∀ last ∈ logged.head?,
      Reach s.forkDb.index last.id (forkHeadAfter s (step.marked block logged)).id

/-- The block at which the loop throws, the blocks it has logged and the root below them. -/
structure Stopped (s : ControllerState χ) (block : BlockState) (logged : List BlockState) : Prop where
  ranked : s.forkDb.Ranked
  path : blockLinkage.Path s.forkDb.getBlock block.id (block :: logged) s.forkDb.root.id
  valid : s.readMode ≠ .irreversible → s.forkDb.isValid block.id = true

namespace Stopped

variable {logged marked : List BlockState}

section

variable (stopped : Stopped s block logged)

include stopped

theorem found : s.forkDb.getBlock block.id = some block := by
  cases stopped.path with
  | cons found _ => exact found

theorem older : blockLinkage.Path s.forkDb.getBlock block.previous logged s.forkDb.root.id := by
  cases stopped.path with
  | cons _ rest => exact rest

section

variable (progress : Progress s logged marked s₂)
  (isMarked : marked = logged ∨ marked = block :: logged)

include progress isMarked

theorem forkDb : s₂.forkDb.Ranked ∧ s₂.forkDb.head = forkHeadAfter s marked := by
  have rootValid := stopped.ranked.tree.isValid_root
  have marks := progress.forkDb
  unfold forkHeadAfter
  unfold markedBlocks at marks ⊢
  split_ifs at marks ⊢ with mode
  · rcases isMarked with rfl | rfl
    · exact ⟨marks.ranked stopped.ranked stopped.older rootValid,
        marks.head_eq_leader stopped.ranked stopped.older rootValid⟩
    · exact ⟨marks.ranked stopped.ranked stopped.path rootValid,
        marks.head_eq_leader stopped.ranked stopped.path rootValid⟩
  · exact ⟨marks.ranked stopped.ranked (.nil s.forkDb.root.id) rootValid,
      marks.head_eq_leader stopped.ranked (.nil s.forkDb.root.id) rootValid⟩

section

variable (isTarget : target = s.forkDb.root ∨ target ∈ marked)

include isTarget

theorem has_valid : s₂.forkDb.Has target ∧ s₂.forkDb.isValid target.id = true := by
  have inside : ∀ other ∈ marked, other ∈ block :: logged := by
    rcases isMarked with rfl | rfl
    · exact fun _ member => mem_cons_of_mem _ member
    · exact fun _ member => member
  have found : ∀ other ∈ marked, s.forkDb.getBlock other.id = some other := fun other member =>
    stopped.path.found s.forkDb.keyed other (inside other member)
  have has : s.forkDb.Has target := isTarget.imp_right (found target)
  refine ⟨progress.forkDb.has_iff.mpr has, ?_⟩
  have marks := progress.forkDb
  unfold markedBlocks at marks
  split_ifs at marks with mode
  · rw [marks.isValid_iff stopped.ranked.tree found]
    rcases isTarget with rfl | member
    · exact .inl stopped.ranked.tree.isValid_root
    · exact .inr ⟨target, member, rfl⟩
  · rw [marks.isValid_iff stopped.ranked.tree (by simp)]
    left
    obtain ⟨rootValid, pathValid⟩ := stopped.ranked.valid_of_path stopped.path (stopped.valid mode)
    rcases isTarget with rfl | member
    · exact rootValid
    · exact pathValid target (inside target member)

theorem advancedTo_cases :
    Reach s.forkDb.index target.id (forkHeadAfter s marked).id ∧
        (advancedTo target.id s₂.forkDb).root = target ∨
      ¬ Reach s.forkDb.index target.id (forkHeadAfter s marked).id ∧
        (advancedTo target.id s₂.forkDb).root = s.forkDb.root := by
  obtain ⟨ranked, head⟩ := stopped.forkDb progress isMarked
  obtain ⟨has, valid⟩ := stopped.has_valid progress isMarked isTarget
  obtain ⟨advances, stays⟩ := advancedTo_root ranked has valid
  rw [head, ForkDatabase.reach_congr progress.forkDb.getBlock_eq] at advances stays
  by_cases reach : Reach s.forkDb.index target.id (forkHeadAfter s marked).id
  · exact .inl ⟨reach, advances reach⟩
  · exact .inr ⟨reach, (stays reach).trans progress.forkDb.root⟩

end

end

theorem headD_num :
    (logged.headD s.forkDb.root).blockNum = s.forkDb.root.blockNum + logged.length ∧
      block.blockNum = (logged.headD s.forkDb.root).blockNum + 1 := by
  have path := stopped.older
  rw [← ForkDatabase.path_headD path] at path
  exact ⟨ForkDatabase.path_num_eq path,
    (ForkDatabase.num_of_previous (ForkDatabase.path_headD stopped.older)).symm⟩

theorem headD_eq_root (num : s.forkDb.root.blockNum = (logged.headD s.forkDb.root).blockNum) :
    logged = [] := by
  have count := stopped.headD_num.1
  exact eq_nil_of_length_eq_zero (by omega)

theorem logged_iff_root (isLogged : Logged s)
    (progress : Progress s logged marked s₂) {forkDb : ForkDatabase} {root : BlockState}
    (isRoot : forkDb.root = root) (unique : root.blockNum = (logged.headD s.forkDb.root).blockNum →
      root = logged.headD s.forkDb.root) :
    Logged { s₂ with forkDb } ↔ root = logged.headD s.forkDb.root := by
  subst isRoot
  exact @logged_iff _ s { s₂ with forkDb } _ _ isLogged stopped.older progress.blog unique

/-- The old root is the end of the log only when nothing was logged. -/
theorem root_eq_headD (num : s.forkDb.root.blockNum = (logged.headD s.forkDb.root).blockNum) :
    s.forkDb.root = logged.headD s.forkDb.root := by
  rw [stopped.headD_eq_root num]
  rfl

theorem logged_iff_of_made (isLogged : Logged s)
    (progress : Progress s logged marked s₂) (isMarked : marked = logged ∨ marked = block :: logged) :
    Logged { s₂ with forkDb := advancedTo (logged.headD s.forkDb.root).id s₂.forkDb } ↔
      ∀ last ∈ logged.head?, Reach s.forkDb.index last.id (forkHeadAfter s marked).id := by
  have isTarget : logged.headD s.forkDb.root = s.forkDb.root ∨
      logged.headD s.forkDb.root ∈ marked := by
    cases logged with
    | nil => exact .inl rfl
    | cons last older =>
      right
      rcases isMarked with rfl | rfl
      · exact mem_cons_self
      · exact mem_cons_of_mem _ mem_cons_self
  rcases stopped.advancedTo_cases progress isMarked isTarget with ⟨reach, root⟩ | ⟨unreached, root⟩
  · rw [stopped.logged_iff_root isLogged progress root fun _ => rfl]
    refine ⟨fun _ last isLast => ?_, fun _ => rfl⟩
    rw [headD_eq_head?_getD, isLast] at reach
    exact reach
  · rw [stopped.logged_iff_root isLogged progress root stopped.root_eq_headD]
    constructor
    · intro same
      rw [stopped.headD_eq_root (congrArg BlockState.blockNum same)]
      simp
    · intro reach
      cases logged with
      | nil => rfl
      | cons last older => exact absurd (reach last rfl) unreached

theorem logged_iff_of_appending (isLogged : Logged s)
    (progress : Progress s logged (block :: logged) s₂) :
    Logged { s₂ with forkDb := advancedTo block.id s₂.forkDb } ↔
      logged = [] ∧ ¬ Reach s.forkDb.index block.id (forkHeadAfter s (block :: logged)).id := by
  have above := stopped.headD_num.2
  rcases stopped.advancedTo_cases progress (.inr rfl) (.inr mem_cons_self) with
    ⟨reach, root⟩ | ⟨unreached, root⟩
  · rw [stopped.logged_iff_root isLogged progress root (by omega)]
    constructor
    · intro same
      rw [← same] at above
      omega
    · rintro ⟨-, unreached⟩
      exact absurd reach unreached
  · rw [stopped.logged_iff_root isLogged progress root stopped.root_eq_headD]
    constructor
    · intro same
      exact ⟨stopped.headD_eq_root (congrArg BlockState.blockNum same), unreached⟩
    · rintro ⟨rfl, -⟩
      rfl

end

end Stopped

def logHead (s : ControllerState χ) : BlockState :=
  if s.readMode = .irreversible then s.forkDb.pendingHead else s.forkDb.head

/-- The blocks that `log_irreversible` is going to log, the newest first. -/
def blocksToLog (s : ControllerState χ) : List BlockState :=
  s.forkDb.fetchBranch (logHead s).id (logHead s).dposIrreversibleBlocknum

/-- A block that is going to be logged, with those that come before it. -/
theorem stopped_of_blocksToLog {newer logged : List BlockState} (ranked : s.forkDb.Ranked)
    (split : blocksToLog s = newer ++ block :: logged) : Stopped s block logged := by
  have member : block ∈ blocksToLog s := by
    rw [split]
    exact mem_append_right _ mem_cons_self
  have has : s.forkDb.Has (logHead s) := by
    unfold logHead
    split_ifs
    · exact ranked.has_pendingHead
    · exact ranked.headHas
  refine ⟨ranked, ?_, fun mode => ?_⟩
  · obtain ⟨start, path⟩ := (ranked.tree.branch_path has).filter_generation s.forkDb.keyed
      (logHead s).dposIrreversibleBlocknum
    have listed : (s.forkDb.branch (logHead s).id).filter (fun node => decide
        (blockLinkage.generation (blockLinkage.key node) ≤ (logHead s).dposIrreversibleBlocknum)) =
          newer ++ block :: logged := by
      rw [← split]
      apply filter_congr
      intro node _
      rw [← node.idNum]
      rfl
    rw [listed] at path
    obtain ⟨middle, -, rest⟩ := path.split
    have isBlock := ForkDatabase.path_headD rest
    change block.id = middle at isBlock
    rw [isBlock]
    exact rest
  · have isHead : logHead s = s.forkDb.head := if_neg mode
    have valid := ranked.valid_of_path (ranked.tree.branch_path ranked.headHas) ranked.headValid
    unfold blocksToLog ForkDatabase.fetchBranch at member
    rw [isHead] at member
    exact valid.2 block (mem_filter.mp member).1

theorem logIrreversible_eq (isLogged : Logged s) {newer logged : List BlockState}
    (stopped : Stopped s block logged) (split : blocksToLog s = newer ++ block :: logged) :
    logIrreversible env s = (logBlocks env s.forkDb.root.id (blocksToLog s).reverse >>= fun rootId =>
      get >>= fun s => if rootId ≠ s.forkDb.root.id then
        onForkDb (ForkDatabase.advanceRoot rootId) else pure ()) s := by
  have member : block ∈ blocksToLog s := by
    rw [split]
    exact mem_append_right _ mem_cons_self
  have below : block.blockNum ≤ (logHead s).dposIrreversibleBlocknum :=
    of_decide_eq_true (mem_filter.mp member).2
  have above := stopped.ranked.tree.rootBelow_of_getBlock stopped.found
  have begins : s.blog.libNum < (logHead s).dposIrreversibleBlocknum := by
    rw [isLogged.libNum_eq]
    omega
  have matching := isLogged.rootMatchesLog
  unfold RootMatchesLog at matching
  unfold logIrreversible
  rw [get_bind]
  cases isHead : s.blog.head with
  | some head =>
    rw [isHead] at matching
    dsimp only
    rw [bind_of_ok (assert_of_true matching)]
    exact congrFun (if_pos begins) s
  | none =>
    rw [isHead] at matching
    dsimp only
    rw [bind_of_ok (assert_of_true matching)]
    exact congrFun (if_pos begins) s

/-- **When the root is the head of the log again.** One of the steps of the loop throws at a block
after others were logged. -/
theorem logged_after_failure_iff {newer logged : List BlockState} {step : LogStep}
    (ranked : s.forkDb.Ranked) (isLogged : Logged s)
    (split : blocksToLog s = newer ++ block :: logged) (logs : Logs env s logged s₁)
    (fails : FailsAt env s₁ block thrown step) (isFc : thrown.code.isFc = true) :
    ∃ thrown' s', logIrreversible env s = .error thrown' s' ∧
      (Logged s' ↔ RootFollows s block logged step) := by
  have stopped := stopped_of_blocksToLog ranked split
  have progress := logs.progress (stopped.older.found s.forkDb.keyed)
  have looped : (blocksToLog s).reverse = logged.reverse ++ block :: newer.reverse := by
    rw [split, reverse_append, reverse_cons, append_assoc, singleton_append]
  have target : (logged.head?.map (·.id)).getD s.forkDb.root.id = (logged.headD s.forkDb.root).id := by
    cases logged with
    | nil => rfl
    | cons => rfl
  rw [logIrreversible_eq isLogged stopped split, looped]
  rcases fails.stops progress stopped.found with
    ⟨other, s₂, throws, marked⟩ | ⟨rfl, s₂, makes, throws, marked⟩
  · obtain ⟨thrown', handled⟩ := advancingRoot_of_fc (logged.headD s.forkDb.root).id throws isFc
    have loop : logBlocks env s.forkDb.root.id (logged.reverse ++ block :: newer.reverse) s =
        .error thrown' { s₂ with
          forkDb := advancedTo (logged.headD s.forkDb.root).id s₂.forkDb } := by
      rw [logBlocks_of_logs logs, target, logBlocks.eq_2, bind_of_error handled]
    refine ⟨thrown', _, bind_of_error loop, ?_⟩
    cases step with
    | apply => exact stopped.logged_iff_of_made isLogged marked (.inl rfl)
    | signal => exact stopped.logged_iff_of_made isLogged marked (.inr rfl)
    | commit => exact stopped.logged_iff_of_made isLogged marked (.inr rfl)
    | append => exact absurd rfl other
  · obtain ⟨thrown', handled⟩ := advancingRoot_of_fc block.id throws isFc
    have loop : logBlocks env s.forkDb.root.id (logged.reverse ++ block :: newer.reverse) s =
        .error thrown' { s₂ with forkDb := advancedTo block.id s₂.forkDb } := by
      rw [logBlocks_of_logs logs, logBlocks.eq_2, bind_of_ok (advancingRoot_of_ok makes),
        bind_of_error handled]
    exact ⟨thrown', _, bind_of_error loop, stopped.logged_iff_of_appending isLogged marked⟩

/-! ### Two blocks to log -/

/-- A block on `blockD` that makes it irreversible. -/
def blockE : BlockState :=
  ⟨sampleId 4 1, sampleId 3 1, 4, 3, by decide, by decide, by decide⟩

/-- Three blocks on the root, two of which are irreversible. -/
def twoToLog : ControllerState Nat :=
  { onlyRoot with
    forkDb := {
      index := ⟨[⟨blockE, true⟩, ⟨blockD, true⟩, ⟨blockA, true⟩], by decide⟩
      root := rootBlock
      head := blockE }
    head := blockE
    db := ⟨3, [2, 1, 0], 4⟩
    reversibleBlocks := [blockE, blockD, blockA] }

theorem ranked_twoToLog : twoToLog.forkDb.Ranked where
  tree := ⟨by decide +kernel, by decide⟩
  headHas := .inr (by decide +kernel)
  headValid := by decide +kernel
  closed := by decide +kernel
  best := by decide +kernel

theorem logged_twoToLog : Logged twoToLog :=
  ⟨logged_onlyRoot.numbered, logged_onlyRoot.linked, logged_onlyRoot.upToRoot⟩

def failingSignal : Environment Nat :=
  { counting 0 with
    handler := fun signal block => if signal = .irreversibleBlock ∧ block.id = blockD.id then
      some ⟨.controllerEmitSignalException, "handler failed"⟩ else none }

def failingAppend : Environment Nat :=
  { counting 0 with
    append := fun block => if block.id = blockD.id then
      some ⟨.blockLogAppendFail, "disk failed"⟩ else none }

def madeA : ControllerState Nat := { twoToLog with db := ⟨3, [2, 1], 4⟩ }

def appendedA : ControllerState Nat := { madeA with blog := ⟨1, [rootBlock, blockA]⟩ }

/-- The signal fails after `blockA` was logged, and the root is `blockA`. -/
theorem logged_after_failing_signal :
    ∃ thrown s', logIrreversible failingSignal twoToLog = .error thrown s' ∧ Logged s' := by
  have makes : makeIrreversible failingSignal blockA twoToLog = .ok () madeA := by decide +kernel
  have appends : appendLog failingSignal blockA madeA = .ok () appendedA := by decide +kernel
  have split : blocksToLog twoToLog = [] ++ blockD :: [blockA] := by decide +kernel
  have throws : passedOn failingSignal .irreversibleBlock blockD =
      some ⟨.controllerEmitSignalException, "handler failed"⟩ := by decide +kernel
  have fails : ∀ s : ControllerState Nat, s.readMode ≠ .irreversible → FailsAt failingSignal s blockD
      ⟨.controllerEmitSignalException, "handler failed"⟩ .signal :=
    fun s mode => .signal (applyIrreversible_of_mode mode) throws
  obtain ⟨thrown, s', ran, iff⟩ := logged_after_failure_iff ranked_twoToLog logged_twoToLog split
    (.cons .nil makes appends) (fails _ (by decide)) rfl
  have follows : RootFollows twoToLog blockD [blockA] .signal := by
    rintro last ⟨⟩
    show Reach _ blockA.id blockE.id
    exact @Reach.child _ _ ⟨blockE, true⟩ (.head _)
      (@Reach.child _ _ ⟨blockD, true⟩ (.tail _ (.head _)) .self)
  exact ⟨thrown, s', ran, iff.mpr follows⟩

/-- `append` fails after `blockA` was logged: the root is `blockD`, and the next call throws. -/
theorem root_ahead_of_log : ∃ s', logIrreversible failingAppend twoToLog =
      .error ⟨.blockLogAppendFail, "disk failed"⟩ s' ∧ s'.forkDb.root = blockD ∧
      s'.blog.head = some blockA ∧ logIrreversible failingAppend s' =
        .error ⟨.forkDatabaseException, "fork database root does not match block log head"⟩ s' := by
  refine ⟨{ appendedA with
    forkDb := { index := ⟨[⟨blockE, true⟩], by decide⟩, root := blockD, head := blockE }
    db := ⟨3, [2], 4⟩
    reversibleBlocks := [blockE, blockD] }, ?_, rfl, rfl, ?_⟩
  · decide +kernel
  · decide +kernel

end ControllerM

end CodexRelay.Chain
