import CodexRelay.Chain.Controller.Runs

/-!
Contract: `commit_block( true )` when it throws.

Owns:
- `Unchanged`: both heads, the reversible blocks and the chain state are as before the
  block was started, and there is no pending block;
- which throws leave the controller unchanged: those before the block has become the
  head of the fork database.
-/

namespace CodexRelay.Chain

open Library

variable {n : BlockState} {thrown : ChainException}

variable {db' grown : ForkDatabase}

/-! ### The head of the fork database -/

namespace ForkDatabase

variable {db : ForkDatabase} {head : BlockState}

theorem remove_keeps_head (id : BlockId) (isHead : db.head = head) :
    (finalState (remove id db)).head = head := by
  unfold remove
  rw [get_bind]
  cases removeQueue db.index db.head.id (db.index.entries.length + 1) [id] with
  | ok => exact isHead
  | error => exact isHead

theorem advanceRoot_keeps_head (id : BlockId) (isHead : db.head = head) :
    (finalState (advanceRoot id db)).head = head := by
  have removes : ∀ (ids : List BlockId) (db : ForkDatabase), db.head = head →
      (finalState (ids.forM remove db)).head = head := by
    intro ids
    induction ids with
    | nil => exact fun _ isHead => isHead
    | cons id rest ih =>
      intro db isHead
      rw [forM_cons]
      exact finalState_bind (·.head = head) (remove_keeps_head id isHead) fun _ db' kept =>
        ih db' kept
  unfold advanceRoot
  rw [get_bind]
  cases db.getBlock id with
  | none => exact isHead
  | some newRoot =>
    dsimp only
    by_cases invalid : (!db.isValid id) = true
    · rw [if_pos invalid]
      exact isHead
    by_cases orphaned : ((db.branch id).map (·.previous)).getLast? ≠ some db.root.id
    · rw [if_neg invalid, if_pos orphaned]
      exact isHead
    · rw [if_neg invalid, if_neg orphaned, set_bind]
      refine finalState_bind (fun db : ForkDatabase => db.head = head) (removes _ _ isHead) ?_
      exact fun _ _ kept => kept

/-- What `add` refuses: a block without its parent, and a block that is there. -/
theorem add_refuses (refused : add n false db = .error thrown db') :
    db.getBlockHeader n.previous = none ∨ db.getBlock n.id ≠ none := by
  by_contra accepted
  obtain ⟨linked, fresh⟩ := not_or.mp accepted
  have missing : n.id ∉ db.index.entries.map (·.block.id) := by
    intro member
    obtain ⟨entry, entryMem, same⟩ := List.mem_map.mp member
    refine fresh ?_
    rw [← same, getBlock_of_mem entryMem]
    exact Option.some_ne_none _
  unfold add at refused
  rw [get_bind, if_neg linked, ForkIndex.insert, dif_neg missing] at refused
  dsimp only at refused
  generalize ForkIndex.begin _ = first at refused
  match first with
  | some ⟨_, true⟩ => cases refused
  | some ⟨_, false⟩ => cases refused
  | none => cases refused

theorem Added.not_refused (added : Added db db' n) :
    ¬ (db.getBlockHeader n.previous = none ∨ db.getBlock n.id ≠ none) := by
  rintro (unlinked | taken)
  · obtain ⟨parent, same, has⟩ := added.linked
    unfold getBlockHeader at unlinked
    rw [← same] at unlinked
    rcases has with rfl | found
    · rw [if_pos rfl] at unlinked
      cases unlinked
    · split_ifs at unlinked
      rw [found] at unlinked
      cases unlinked
  · exact taken added.fresh

theorem Added.head_ne (added : Added db grown n) (ranked : db.Ranked) : db.head ≠ n := by
  intro isHead
  rcases ranked.headHas with isRoot | found
  · have missing := (added.tree ranked.tree).getBlock_root
    rw [added.root, ← isRoot, isHead, added.getBlock_new] at missing
    cases missing
  · rw [isHead, added.fresh] at found
    cases found

theorem Added.marked_head_iff {marked : ForkDatabase} (added : Added db grown n)
    (isMarked : Marked grown marked n) (ranked : db.Ranked) :
    marked.head = db.head ↔ db.HeadLeads ∧ ¬ firstPreferred n db.head := by
  have grownRanked := added.ranked ranked
  have other := added.head_ne ranked
  constructor
  · intro kept
    have grownHead : grown.head = db.head := by
      rcases isMarked.head_cases grownRanked added.getBlock_new with same | moved
      · exact same.symm.trans kept
      · exact absurd (kept.symm.trans moved) other
    refine ⟨added.head_iff.mp grownHead, fun preferred => other ?_⟩
    rw [← grownHead] at preferred
    exact kept.symm.trans (isMarked.head_eq grownRanked added.getBlock_new preferred)
  · rintro ⟨leads, notPreferred⟩
    have grownHead : grown.head = db.head := added.head_iff.mpr leads
    rw [← grownHead] at notPreferred
    exact (isMarked.head_of_not_preferred grownRanked added.getBlock_new notPreferred).trans grownHead

end ForkDatabase

/-! ### After the block has become the head -/

namespace ControllerM

variable {χ : Type} {env : Environment χ} {s s' : ControllerState χ} {block head : BlockState}

/-- The head of the fork database and the read mode, which nothing changes after the
block has become the head. -/
def Entered (head : BlockState) (mode : DbReadMode) (s : ControllerState χ) : Prop :=
  s.forkDb.head = head ∧ s.readMode = mode

variable {mode : DbReadMode}

theorem onForkDb_keeps {call : ForkDatabaseM Unit} (entered : Entered head mode s)
    (keeps : (finalState (call s.forkDb)).head = head) :
    Entered head mode (finalState ((onForkDb call : ControllerM χ Unit) s)) := by
  unfold onForkDb
  cases ran : call s.forkDb with
  | ok =>
    rw [ran] at keeps
    exact ⟨keeps, entered.2⟩
  | error =>
    rw [ran] at keeps
    exact ⟨keeps, entered.2⟩

theorem advancingRoot_keeps {rootId : BlockId} {body : ControllerM χ Unit}
    (keeps : Entered head mode (finalState (body s))) :
    Entered head mode (finalState (advancingRoot rootId body s)) := by
  unfold advancingRoot
  refine finalState_bind (Entered head mode) ?_ ?_
  · unfold attempt
    cases ran : body s with
    | ok => rwa [ran] at keeps
    | error thrown =>
      rw [ran] at keeps
      dsimp only
      split_ifs <;> exact keeps
  · intro caught s' kept
    cases caught with
    | none => exact kept
    | some thrown =>
      dsimp only
      rw [get_bind]
      by_cases moved : rootId ≠ s'.forkDb.root.id
      · rw [if_pos moved]
        refine finalState_bind (Entered head mode) ?_ fun _ _ kept => kept
        exact onForkDb_keeps kept (ForkDatabase.advanceRoot_keeps_head rootId kept.1)
      · rw [if_neg moved]
        exact kept

/-- The exception of the step leaves it, or that of `advance_root`. -/
theorem advancingRoot_of_error (rootId : BlockId) {body : ControllerM χ Unit}
    (ran : body s = .error thrown s') (entered : Entered head mode s') :
    ∃ thrown' s'', advancingRoot rootId body s = .error thrown' s'' ∧ Entered head mode s'' := by
  have kept : Entered head mode (finalState (advancingRoot rootId body s)) := by
    refine advancingRoot_keeps ?_
    rw [ran]
    exact entered
  suffices stops : ∃ thrown' s'', advancingRoot rootId body s = .error thrown' s'' by
    obtain ⟨thrown', s'', stopped⟩ := stops
    rw [stopped] at kept
    exact ⟨thrown', s'', stopped, kept⟩
  unfold advancingRoot
  cases isFc : thrown.code.isFc with
  | false => exact ⟨thrown, s', bind_of_error (attempt_of_other ran isFc)⟩
  | true =>
    rw [bind_of_ok (attempt_of_error ran isFc)]
    dsimp only
    rw [get_bind]
    by_cases moved : rootId ≠ s'.forkDb.root.id
    · rw [if_pos moved]
      cases advanced : ForkDatabase.advanceRoot rootId s'.forkDb with
      | ok => exact ⟨thrown, _, bind_of_ok (onForkDb_of_ok advanced)⟩
      | error thrown' => exact ⟨thrown', _, bind_of_error (onForkDb_of_error advanced)⟩
    · rw [if_neg moved]
      exact ⟨thrown, s', rfl⟩

theorem emit_keeps (signal : Signal) (entered : Entered head mode s) :
    Entered head mode (finalState (emit env signal block s)) := by
  unfold emit
  cases passedOn env signal block with
  | none => exact entered
  | some => exact entered

section

variable (entered : Entered head mode s)

include entered

theorem commitDb_keeps : Entered head mode (finalState (commitDb env block s)) := by
  unfold commitDb
  cases env.commit block with
  | none => exact entered
  | some => exact entered

theorem assert_keeps {test : Prop} [Decidable test] {code : ExceptionCode} {what : String} :
    Entered head mode (finalState ((assert test code what : ControllerM χ Unit) s)) := by
  unfold assert
  split_ifs <;> exact entered

theorem appendLog_keeps : Entered head mode (finalState (appendLog env block s)) := by
  unfold appendLog captureAndRethrow
  refine finalState_tryCatch (Entered head mode) ?_ fun _ _ kept => kept
  rw [get_bind]
  refine finalState_bind (Entered head mode) (assert_keeps entered) fun _ s' kept => ?_
  cases env.append block with
  | none => exact entered
  | some => exact kept

theorem createReversible_keeps : Entered head mode (finalState (createReversible env block s)) := by
  unfold createReversible
  rw [get_bind]
  cases env.create block with
  | some => exact entered
  | none =>
    dsimp only
    exact finalState_bind (Entered head mode) (assert_keeps entered) fun _ _ _ => entered

end

/-- In the read mode IRREVERSIBLE a block would be applied first, and cannot be while
there is a pending block. -/
theorem logBlocks_keeps (rootId : BlockId) (blocks : List BlockState)
    (entered : Entered head mode s) (busy : mode = .irreversible → s.pending.isSome = true) :
    Entered head mode (finalState (logBlocks env rootId blocks s)) := by
  induction blocks generalizing s rootId with
  | nil => exact entered
  | cons block rest ih =>
    rw [logBlocks.eq_2]
    by_cases irreversible : mode = .irreversible
    · obtain ⟨stage, pending⟩ := Option.isSome_iff_exists.mp (busy irreversible)
      obtain ⟨thrown, threw⟩ : ∃ thrown, applyBlock env block .complete s =
          .error thrown { s with pending := none } := applyBlock_of_busy pending
      have ran : makeIrreversible env block s = .error thrown { s with pending := none } := by
        have first : applyIrreversible env block s = .error thrown { s with pending := none } := by
          unfold applyIrreversible
          rw [get_bind, if_pos (entered.2.trans irreversible), bind_of_error threw]
        unfold makeIrreversible
        rw [bind_of_error first]
      obtain ⟨thrown', s'', stopped, kept⟩ := advancingRoot_of_error rootId ran entered
      rw [bind_of_error stopped]
      exact kept
    · refine finalState_bind (Entered head mode) (advancingRoot_keeps ?_) fun _ s' kept => ?_
      · unfold makeIrreversible
        rw [bind_of_ok (applyIrreversible_of_mode (by rwa [entered.2]))]
        refine finalState_bind (Entered head mode) (emit_keeps _ entered) fun _ _ kept => ?_
        exact commitDb_keeps kept
      refine finalState_bind (Entered head mode) (advancingRoot_keeps (appendLog_keeps kept))
        fun _ s'' kept' => ?_
      rw [modify_bind]
      exact ih block.id kept' fun isIrreversible => absurd isIrreversible irreversible

theorem logIrreversible_keeps (entered : Entered head mode s)
    (busy : mode = .irreversible → s.pending.isSome = true) :
    Entered head mode (finalState (logIrreversible env s)) := by
  have logs : ∀ forkHead : BlockState, Entered head mode (finalState
      ((if s.blog.libNum < forkHead.dposIrreversibleBlocknum then do
        let rootId ← logBlocks env s.forkDb.root.id
          (s.forkDb.fetchBranch forkHead.id forkHead.dposIrreversibleBlocknum).reverse
        if rootId ≠ (← get).forkDb.root.id then onForkDb (ForkDatabase.advanceRoot rootId)
      else pure () : ControllerM χ Unit) s)) := by
    intro forkHead
    split_ifs
    case neg => exact entered
    refine finalState_bind (Entered head mode) (logBlocks_keeps _ _ entered busy) ?_
    intro rootId s' kept
    rw [get_bind]
    by_cases moved : rootId ≠ s'.forkDb.root.id
    · rw [if_pos moved]
      exact onForkDb_keeps kept (ForkDatabase.advanceRoot_keeps_head rootId kept.1)
    · rw [if_neg moved]
      exact kept
  unfold logIrreversible
  rw [get_bind]
  cases s.blog.head with
  | some logHead =>
    dsimp only
    by_cases matching : s.forkDb.root.id = logHead.id
    · rw [bind_of_ok (assert_of_true matching)]
      exact logs _
    · rw [bind_of_error (assert_of_false matching)]
      exact entered
  | none =>
    dsimp only
    by_cases matching : s.forkDb.root.blockNum = s.blog.libNum
    · rw [bind_of_ok (assert_of_true matching)]
      exact logs _
    · rw [bind_of_error (assert_of_false matching)]
      exact entered

/-! ### The throws of `commit_block` -/

/-- Both heads, the reversible blocks and the chain state are as before, and the pending
block is given up. -/
structure Unchanged (s s' : ControllerState χ) : Prop where
  head : s'.head = s.head
  forkHead : s'.forkDb.head = s.forkDb.head
  reversibleBlocks : s'.reversibleBlocks = s.reversibleBlocks
  db : s'.db = s.db
  pending : s'.pending = none

/-- The block does not become the head: the fork database refuses it, or has a head to
which the block is not preferred. In the second case the controller takes over the head
of the fork database, unless the signal throws before. -/
def NotEntered (env : Environment χ) (s : ControllerState χ) (block : BlockState) : Prop :=
  (s.forkDb.getBlockHeader block.previous = none ∨ s.forkDb.getBlock block.id ≠ none) ∨
    s.forkDb.HeadLeads ∧ ¬ firstPreferred block s.forkDb.head ∧
      (passedOn env .acceptedBlockHeader block ≠ none ∨ s.head = s.forkDb.head)

/-- The steps of `commit_block` after the block has become the head. -/
def settleBlock (env : Environment χ) (mode : DbReadMode) (block : BlockState) :
    ControllerM χ Unit := do
  if mode ≠ .irreversible then createReversible env block
  logIrreversible env
  emit env .acceptedBlock block

theorem settleBlock_keeps (entered : Entered head mode s) (busy : s.pending.isSome = true) :
    Entered head mode (finalState (settleBlock env mode block s)) := by
  unfold settleBlock
  by_cases irreversible : mode = .irreversible
  · rw [if_neg (not_not.mpr irreversible)]
    refine finalState_bind (Entered head mode) (logIrreversible_keeps entered fun _ => busy) ?_
    exact fun _ _ kept => emit_keeps _ kept
  · rw [if_pos irreversible]
    refine finalState_bind (Entered head mode) (createReversible_keeps entered) fun _ s' kept => ?_
    refine finalState_bind (Entered head mode) (logIrreversible_keeps kept fun isIrreversible =>
      absurd isIrreversible irreversible) ?_
    exact fun _ _ kept => emit_keeps _ kept

/-- A commit that throws gives up the pending block where its steps stopped. -/
theorem commitBlock_of_error {session : χ} (pending : s.pending = some (.completed block session))
    (threw : commitBlock env s = .error thrown s') :
    ∃ stopped, (enterForkDb env block >>= fun _ => settleBlock env s.readMode block) s =
      .error thrown stopped ∧ s' = { stopped with pending := none } := by
  unfold commitBlock commitWith at threw
  rw [get_bind, pending] at threw
  dsimp only at threw
  change (abortingOn (fun _ => true) (enterForkDb env block >>= fun _ =>
    settleBlock env s.readMode block) >>= fun _ => pushSession session) s = _ at threw
  cases ran : (enterForkDb env block >>= fun _ => settleBlock env s.readMode block) s with
  | ok =>
    rw [bind_of_ok (abortingOn_of_ok ran)] at threw
    cases threw
  | error thrown' stopped =>
    rw [bind_of_error (abortingOn_of_error ran)] at threw
    obtain ⟨rfl, rfl⟩ := EStateM.Result.error.inj threw
    exact ⟨stopped, rfl, rfl⟩

/-- **Atomic commit.** A `commit_block( true )` that throws leaves the controller as it
was exactly when the block did not become the head of the fork database. -/
theorem commitBlock_unchanged_iff {session : χ} {thrown : ChainException} (ranked : s.forkDb.Ranked)
    (pending : s.pending = some (.completed block session))
    (threw : commitBlock env s = .error thrown s') : Unchanged s s' ↔ NotEntered env s block := by
  obtain ⟨stopped, ran, rfl⟩ := commitBlock_of_error pending threw
  have outcome := enterForkDb_outcome env s block
  generalize enters : enterForkDb env block s = result at outcome
  unfold NotEntered
  cases outcome with
  | refused refused =>
    rw [bind_of_error enters] at ran
    obtain ⟨-, rfl⟩ := EStateM.Result.error.inj ran
    exact iff_of_true ⟨rfl, rfl, rfl, rfl, rfl⟩ (.inl (ForkDatabase.add_refuses refused))
  | @signalled grown forkDb _ added marked signal =>
    rw [bind_of_error enters] at ran
    obtain ⟨-, rfl⟩ := EStateM.Result.error.inj ran
    have kept := added.marked_head_iff marked ranked
    rw [or_iff_right added.not_refused, signal]
    constructor
    · intro unchanged
      obtain ⟨leads, notPreferred⟩ := kept.mp unchanged.forkHead
      exact ⟨leads, notPreferred, .inl (Option.some_ne_none _)⟩
    · rintro ⟨leads, notPreferred, -⟩
      exact ⟨rfl, kept.mpr ⟨leads, notPreferred⟩, rfl, rfl, rfl⟩
  | @notHead grown forkDb _ added marked quiet other =>
    rw [bind_of_error enters] at ran
    obtain ⟨-, rfl⟩ := EStateM.Result.error.inj ran
    have kept := added.marked_head_iff marked ranked
    rw [or_iff_right added.not_refused, quiet]
    constructor
    · intro unchanged
      have forkHead : forkDb.head = s.forkDb.head := unchanged.forkHead
      obtain ⟨leads, notPreferred⟩ := kept.mp forkHead
      exact ⟨leads, notPreferred, .inr (unchanged.head.symm.trans forkHead)⟩
    · rintro ⟨leads, notPreferred, signal | same⟩
      · exact absurd rfl signal
      · have forkHead := kept.mpr ⟨leads, notPreferred⟩
        exact ⟨forkHead.trans same.symm, forkHead, rfl, rfl, rfl⟩
  | @entered grown forkDb added marked isHead =>
    -- Whatever throws now, the block stays the head of the fork database.
    have other := added.head_ne ranked
    have keeps : Entered block s.readMode (finalState (settleBlock env s.readMode block
        { s with forkDb, head := block })) := settleBlock_keeps ⟨isHead, rfl⟩ (by simp [pending])
    rw [bind_of_ok enters] at ran
    rw [ran] at keeps
    refine iff_of_false (fun unchanged => ?_) ?_
    · exact other (unchanged.forkHead.symm.trans keeps.1)
    · rintro (refused | ⟨leads, notPreferred, -⟩)
      · exact added.not_refused refused
      · have kept := (added.marked_head_iff marked ranked).mpr ⟨leads, notPreferred⟩
        exact other (kept.symm.trans isHead)

def fullStore : Environment Nat :=
  { counting 0 with create := fun _ => some ⟨.interprocessBadAlloc, "bad alloc"⟩ }

/-- A commit that cannot store its block leaves the block as the head of the controller and
of the fork database, over the chain state of the root. -/
theorem commit_not_atomic_of_full_store :
    ∃ s' : ControllerState Nat, commitBlock fullStore (completing onlyRoot blockA 1) =
        .error ⟨.interprocessBadAlloc, "bad alloc"⟩ s' ∧
      s'.head = blockA ∧ s'.forkDb.head = blockA ∧ s'.db = onlyRoot.db ∧
        ¬ Unchanged (completing onlyRoot blockA 1) s' := by
  refine ⟨{ onlyRoot with
    forkDb := { index := ⟨[⟨blockA, true⟩], by decide⟩, root := rootBlock, head := blockA }
    head := blockA }, by decide +kernel, rfl, rfl, rfl, ?_⟩
  intro unchanged
  exact absurd unchanged.head (by decide)

/-- A block on `blockA`. -/
def blockH : BlockState :=
  ⟨sampleId 3 4, sampleId 2 1, 3, 0, by decide, blockD.previousNum, blockC.libBelow⟩

theorem ranked_switchedC : switchedC.forkDb.Ranked where
  tree := ⟨by decide +kernel, by decide⟩
  headHas := .inr (by decide +kernel)
  headValid := by decide +kernel
  closed := by decide +kernel
  best := by decide +kernel

/-- After the switch to `blockC`, a block on the branch that was left is not preferred to the head:
its commit throws and changes nothing. -/
theorem commit_unchanged_after_switch : ∃ s' : ControllerState Nat,
    commitBlock (counting 0) (completing switchedC blockH 1) =
        .error ⟨.forkDatabaseException,
          "committed block did not become the new head in fork database"⟩ s' ∧
      Unchanged (completing switchedC blockH 1) s' := by
  have threw : commitBlock (counting 0) (completing switchedC blockH 1) =
      .error ⟨.forkDatabaseException,
        "committed block did not become the new head in fork database"⟩
      { switchedC with
        forkDb := {
          index := ⟨[⟨blockH, true⟩, ⟨blockC, true⟩, ⟨blockB, true⟩, ⟨blockA, true⟩], by decide⟩
          root := rootBlock
          head := blockC } } := by
    decide +kernel
  have ranked : (completing switchedC blockH 1).forkDb.Ranked := ranked_switchedC
  have leads : (completing switchedC blockH 1).forkDb.HeadLeads :=
    @headLeads_of_begin _ ⟨blockC, true⟩ (by decide) rfl
  exact ⟨_, threw, (commitBlock_unchanged_iff ranked rfl threw).mpr
    (.inr ⟨leads, by decide, .inr rfl⟩)⟩

end ControllerM

end CodexRelay.Chain
