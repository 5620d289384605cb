import CodexRelay.Chain.Controller.Runs

/-!
Contract: which transactions of popped blocks are kept for later.

Owns:
- `block_state::trxs` and `unapplied_transactions`, and what `pop_block`, `apply_block`,
  `maybe_switch_forks` and `push_block` do to them, beside what the controller model says of the
  same functions;
- that these functions do to the controller what those of the controller model do;
- which transactions are unapplied after a switch of forks.

Does not own: the transactions of a pending block that is given up by its producer.

A block that was received is a block state without `trxs`. `apply_block` fills those of a block
state of its own and drops it. Blocks that this node produced have their `trxs`, and so have the
blocks that `fork_database::open` read from its file.
-/

namespace CodexRelay.Chain

open Library List

variable {status : BlockStatus} {applied : Nat}

structure TransactionMetadata where
  id : Digest
  signedId : Digest
deriving DecidableEq

structure Recaptured where
  /-- `block_state::trxs`, of the states in the fork database -/
  trxs : BlockId → List TransactionMetadata
  /-- by `signed_id` -/
  unappliedTransactions : AList fun _ : Digest => TransactionMetadata

namespace Recaptured

def add (recaptured : Recaptured) (trxs : List TransactionMetadata) : Recaptured :=
  { recaptured with
    unappliedTransactions := trxs.foldl (fun unapplied trx => unapplied.insert trx.signedId trx)
      recaptured.unappliedTransactions }

def erase (recaptured : Recaptured) (trxs : List TransactionMetadata) : Recaptured :=
  { recaptured with
    unappliedTransactions := trxs.foldl (fun unapplied trx => unapplied.erase trx.signedId)
      recaptured.unappliedTransactions }

/-- After a block failed: `count` of its transactions were applied, and the next one failed
for a reason that is not `subjective`. Giving up the block puts those back that were applied. -/
def afterFailure (recaptured : Recaptured) (inputs : List TransactionMetadata) (count : Nat)
    (objective aborted : Bool) : Recaptured :=
  let erased := recaptured.erase (inputs.take (if objective then count + 1 else count))
  if aborted then erased.add (inputs.take count) else erased

/-! ### Membership -/

section Membership

variable {recaptured : Recaptured} {trxs : List TransactionMetadata} {key : Digest}

theorem mem_add : key ∈ (recaptured.add trxs).unappliedTransactions ↔
    key ∈ recaptured.unappliedTransactions ∨ ∃ trx ∈ trxs, trx.signedId = key := by
  unfold add
  dsimp only
  generalize recaptured.unappliedTransactions = unapplied
  induction trxs generalizing unapplied with
  | nil => simp
  | cons trx trxs ih =>
    rw [foldl_cons, ih, AList.mem_insert]
    simp only [exists_mem_cons_iff]
    grind

theorem mem_erase : key ∈ (recaptured.erase trxs).unappliedTransactions ↔
    key ∈ recaptured.unappliedTransactions ∧ ¬ ∃ trx ∈ trxs, trx.signedId = key := by
  unfold erase
  dsimp only
  generalize recaptured.unappliedTransactions = unapplied
  induction trxs generalizing unapplied with
  | nil => simp
  | cons trx trxs ih =>
    rw [foldl_cons, ih, AList.mem_erase]
    simp only [exists_mem_cons_iff]
    grind

variable {blocks : List BlockState} {trxsOf : BlockId → List TransactionMetadata}

/-- A transaction with this `signed_id` is among those of the blocks. -/
def Among (trxsOf : BlockId → List TransactionMetadata) (blocks : List BlockState) (key : Digest) :
    Prop :=
  ∃ block ∈ blocks, ∃ trx ∈ trxsOf block.id, trx.signedId = key

theorem mem_addAll : key ∈ (blocks.foldl (fun recaptured block => recaptured.add (trxsOf block.id))
    recaptured).unappliedTransactions ↔
      key ∈ recaptured.unappliedTransactions ∨ Among trxsOf blocks key := by
  induction blocks generalizing recaptured with
  | nil => simp [Among]
  | cons block blocks ih =>
    rw [foldl_cons, ih, mem_add]
    simp only [Among, exists_mem_cons_iff, or_assoc]

theorem mem_eraseAll :
    key ∈ (blocks.foldl (fun recaptured block => recaptured.erase (trxsOf block.id))
      recaptured).unappliedTransactions ↔
        key ∈ recaptured.unappliedTransactions ∧ ¬ Among trxsOf blocks key := by
  induction blocks generalizing recaptured with
  | nil => simp [Among]
  | cons block blocks ih =>
    rw [foldl_cons, ih, mem_erase]
    simp only [Among, exists_mem_cons_iff, not_or, and_assoc]

theorem among_reverse : Among trxsOf blocks.reverse key ↔ Among trxsOf blocks key := by
  simp [Among]

end Membership

end Recaptured

structure BlockContents (χ : Type) where
  inputs : BlockId → List TransactionMetadata
  /-- how many of them are applied before the block fails, and whether the next one fails
  objectively -/
  progress : BlockStatus → χ → BlockState → Nat × Bool

abbrev SpeculativeM (χ : Type) := EStateM ChainException (ControllerState χ × Recaptured)

namespace SpeculativeM

variable {χ : Type}

/-! ### The functions -/

/-- `try { body } catch( const fc::exception& )`: the exception that was caught. -/
def attempt (body : SpeculativeM χ Unit) : SpeculativeM χ (Option ChainException) := fun s =>
  match body s with
  | .ok _ s' => .ok none s'
  | .error thrown s' => if thrown.code.isFc then .ok (some thrown) s' else .error thrown s'

def popBlock : SpeculativeM χ Unit := do
  let before ← get
  onFirst ControllerM.popBlock
  modify fun s => (s.1,
    if before.1.readMode = .speculative then s.2.add (s.2.trxs before.1.head.id) else s.2)

/-- `apply_block`; `push_transaction` erases the transactions that it applies. -/
def applyBlock (env : Environment χ) (contents : BlockContents χ) (block : BlockState)
    (status : BlockStatus) : SpeculativeM χ Unit := fun s =>
  match ControllerM.applyBlock env block status s.1 with
  | .ok _ controller => .ok () (controller, s.2.erase (contents.inputs block.id))
  | .error thrown controller =>
    let progress := contents.progress status s.1.db.state block
    .error thrown (controller, s.2.afterFailure (contents.inputs block.id) progress.1 progress.2
      (controller.pending.isNone && s.1.readMode = .speculative))

variable (env : Environment χ) (contents : BlockContents χ)

def advanceHead (block : BlockState) (status : BlockStatus) : SpeculativeM χ Unit := do
  applyBlock env contents block status
  onFirst (ControllerM.onForkDb (ForkDatabase.markValid block))
  onFirst (modify fun s => { s with head := block })

def popBlocks : Nat → SpeculativeM χ Unit
  | 0 => pure ()
  | count + 1 => do
      popBlock
      popBlocks count

def reapplyBlocks (env : Environment χ) (contents : BlockContents χ) :
    List BlockState → SpeculativeM χ Unit
  | [] => pure ()
  | block :: rest => do
      applyBlock env contents block .validated
      onFirst (modify fun s => { s with head := block })
      reapplyBlocks env contents rest

def undoSwitch (oldBranch : List BlockState)
    (applied : Nat) (block : BlockState) (thrown : ChainException) : SpeculativeM χ Unit := do
  onFirst (ControllerM.onForkDb (ForkDatabase.remove block.id))
  popBlocks applied
  match oldBranch.getLast? with
  | none => throw ⟨.fault, "back() of an empty branch"⟩
  | some oldest =>
    let s ← get
    onFirst (ControllerM.assert (s.1.head.id = oldest.previous) .forkDatabaseException
      "loss of sync between fork_db and chainbase during fork switch reversal")
    reapplyBlocks env contents oldBranch.reverse
    throw thrown

def applyBranch (env : Environment χ) (contents : BlockContents χ) (oldBranch : List BlockState) :
    (applied : Nat) → List BlockState → SpeculativeM χ Unit
  | _, [] => pure ()
  | applied, block :: rest => do
      let s ← get
      let status := if s.1.forkDb.isValid block.id then .validated else .complete
      match ← attempt (advanceHead env contents block status) with
      | none => applyBranch env contents oldBranch (applied + 1) rest
      | some thrown => undoSwitch env contents oldBranch applied block thrown

def switchForks (newHead : BlockState) :
    SpeculativeM χ Unit := do
  let s ← get
  match s.1.forkDb.fetchBranchFrom newHead.id s.1.head.id with
  | .error thrown => throw thrown
  | .ok (newBranch, oldBranch) =>
    match oldBranch.getLast? with
    | none => pure ()
    | some oldest =>
      popBlocks oldBranch.length
      let s ← get
      onFirst (ControllerM.assert (s.1.head.id = oldest.previous) .forkDatabaseException
        "loss of sync between fork_db and chainbase during fork switch")
    applyBranch env contents oldBranch 0 newBranch.reverse

def maybeSwitchForks (newHead : BlockState) (status : BlockStatus) : SpeculativeM χ Unit := do
  let s ← get
  if newHead.previous = s.1.head.id then
    match ← attempt (advanceHead env contents newHead status) with
    | none => onFirst (ControllerM.logIrreversible env)
    | some thrown =>
      onFirst (ControllerM.onForkDb (ForkDatabase.remove newHead.id))
      throw thrown
  else if newHead.id ≠ s.1.head.id then
    switchForks env contents newHead
    onFirst (ControllerM.logIrreversible env)

/-- The end of a function with `FC_LOG_AND_RETHROW`. -/
def captureAndRethrow (body : SpeculativeM χ Unit) : SpeculativeM χ Unit :=
  tryCatch body fun thrown => throw (ControllerM.rethrown env thrown)

/-- `push_block`: the state of a block that was received has no `trxs`. -/
def pushBlock (future : Checked BlockState) : SpeculativeM χ Unit := do
  let s ← get
  onFirst (ControllerM.assert s.1.pending.isNone .blockValidateException
    "it is not valid to push a block when there is a pending block")
  captureAndRethrow env do
    match future with
    | .error thrown => throw thrown
    | .ok block =>
      onFirst (ControllerM.emit env .preAcceptedBlock block)
      onFirst (ControllerM.onForkDb (ForkDatabase.add block false))
      modify fun s => (s.1, { s.2 with trxs := Function.update s.2.trxs block.id [] })
      onFirst (ControllerM.emit env .acceptedBlockHeader block)
      let s ← get
      if s.1.readMode ≠ .irreversible then
        maybeSwitchForks env contents s.1.forkDb.pendingHead .complete
      else onFirst (ControllerM.logIrreversible env)

/-! ### What they do to the controller -/

section Controller

variable {body : SpeculativeM χ Unit} {original : ControllerM χ Unit}

theorem actsAs_attempt (same : ActsAs body original) :
    ActsAs (attempt body) (ControllerM.attempt original) := by
  intro s
  have same := same s
  unfold attempt ControllerM.attempt
  rw [← same]
  cases body s with
  | ok value s' => rfl
  | error thrown s' =>
    dsimp only [forgetSecond]
    split_ifs <;> rfl

theorem actsAs_popBlock : ActsAs popBlock (ControllerM.popBlock : ControllerM χ Unit) := by
  intro s
  unfold popBlock
  rw [get_bind]
  cases popped : ControllerM.popBlock s.1 with
  | ok value s' =>
    have ran : onFirst ControllerM.popBlock s = .ok value (s', s.2) := by rw [onFirst, popped]
    rw [bind_of_ok ran]
    rfl
  | error thrown s' =>
    have ran : onFirst ControllerM.popBlock s = .error thrown (s', s.2) := by rw [onFirst, popped]
    rw [bind_of_error ran]
    rfl

theorem actsAs_popBlocks (count : Nat) :
    ActsAs (popBlocks count) (ControllerM.popBlocks count : ControllerM χ Unit) := by
  induction count with
  | zero => exact actsAs_pure ()
  | succ count ih => exact actsAs_popBlock.bind fun _ => ih

variable (env : Environment χ) (contents : BlockContents χ)

theorem actsAs_applyBlock (block : BlockState) (status : BlockStatus) :
    ActsAs (applyBlock env contents block status) (ControllerM.applyBlock env block status) := by
  intro s
  unfold applyBlock
  cases ControllerM.applyBlock env block status s.1 <;> rfl

theorem actsAs_advanceHead (block : BlockState) (status : BlockStatus) :
    ActsAs (advanceHead env contents block status) (ControllerM.advanceHead env block status) :=
  (actsAs_applyBlock env contents block status).bind fun _ =>
    (actsAs_onFirst _).bind fun _ => actsAs_onFirst _

theorem actsAs_reapplyBlocks (blocks : List BlockState) :
    ActsAs (reapplyBlocks env contents blocks) (ControllerM.reapplyBlocks env blocks) := by
  induction blocks with
  | nil => exact actsAs_pure ()
  | cons block rest ih =>
    exact (actsAs_applyBlock env contents block _).bind fun _ => (actsAs_onFirst _).bind fun _ => ih

theorem actsAs_undoSwitch (oldBranch : List BlockState) (applied : Nat) (block : BlockState)
    (thrown : ChainException) :
    ActsAs (undoSwitch env contents oldBranch applied block thrown)
      (ControllerM.undoSwitch env oldBranch applied block thrown) := by
  refine (actsAs_onFirst _).bind fun _ => (actsAs_popBlocks applied).bind fun _ => ?_
  cases oldBranch.getLast? with
  | none => exact actsAs_throw _
  | some oldest =>
    refine actsAs_get_bind fun s => (actsAs_onFirst _).bind fun _ => ?_
    exact (actsAs_reapplyBlocks env contents _).bind fun _ => actsAs_throw thrown

theorem actsAs_applyBranch (oldBranch : List BlockState) (applied : Nat) (blocks : List BlockState) :
    ActsAs (applyBranch env contents oldBranch applied blocks)
      (ControllerM.applyBranch env oldBranch applied blocks) := by
  induction blocks generalizing applied with
  | nil => exact actsAs_pure ()
  | cons block rest ih =>
    refine actsAs_get_bind fun s =>
      (actsAs_attempt (actsAs_advanceHead env contents block _)).bind fun caught => ?_
    cases caught with
    | none => exact ih (applied + 1)
    | some thrown => exact actsAs_undoSwitch env contents oldBranch applied block thrown

theorem actsAs_switchForks (newHead : BlockState) :
    ActsAs (switchForks env contents newHead) (ControllerM.switchForks env newHead) := by
  refine actsAs_get_bind fun s => ?_
  cases s.1.forkDb.fetchBranchFrom newHead.id s.1.head.id with
  | error thrown => exact actsAs_throw thrown
  | ok branches =>
    have applies := actsAs_applyBranch env contents branches.2 0 branches.1.reverse
    dsimp only
    cases branches.2.getLast? with
    | none => exact applies
    | some oldest =>
      refine (actsAs_popBlocks _).bind fun _ => actsAs_get_bind fun s => ?_
      exact (actsAs_onFirst _).bind fun _ => applies

theorem actsAs_maybeSwitchForks (newHead : BlockState) (status : BlockStatus) :
    ActsAs (maybeSwitchForks env contents newHead status)
      (ControllerM.maybeSwitchForks env newHead status) := by
  refine actsAs_get_bind fun s => ?_
  split_ifs
  · refine (actsAs_attempt (actsAs_advanceHead env contents newHead status)).bind fun caught => ?_
    cases caught with
    | none => exact actsAs_onFirst _
    | some thrown => exact (actsAs_onFirst _).bind fun _ => actsAs_throw thrown
  · exact (actsAs_switchForks env contents newHead).bind fun _ => actsAs_onFirst _
  · exact actsAs_pure ()

/-- The transactions change nothing of what `push_block` does to the controller, so what is proved
of its runs holds here. -/
theorem actsAs_pushBlock (future : Checked BlockState) :
    ActsAs (pushBlock env contents future) (ControllerM.pushBlock env future) := by
  refine actsAs_get_bind fun s => (actsAs_onFirst _).bind fun _ => ?_
  refine ActsAs.tryCatch ?_ fun thrown => actsAs_throw _
  cases future with
  | error thrown => exact actsAs_throw thrown
  | ok block =>
    refine (actsAs_onFirst _).bind fun _ => (actsAs_onFirst _).bind fun _ => ?_
    refine actsAs_modify_bind ((actsAs_onFirst _).bind fun _ => actsAs_get_bind fun s => ?_)
    split_ifs
    · exact actsAs_maybeSwitchForks env contents _ _
    · exact actsAs_onFirst _

end Controller

/-! ### What they do to the transactions -/

section Transactions

variable {env : Environment χ} {contents : BlockContents χ} {s s' : ControllerState χ × Recaptured}
  {block common newHead : BlockState} {newBranch oldBranch : List BlockState}

theorem attempt_eq_none {body : SpeculativeM χ Unit} (ran : attempt body s = .ok none s') :
    body s = .ok () s' := by
  unfold attempt at ran
  cases result : body s with
  | ok value s'' =>
    rw [result] at ran
    obtain ⟨-, rfl⟩ := EStateM.Result.ok.inj ran
    rfl
  | error thrown s'' =>
    rw [result] at ran
    dsimp only at ran
    split_ifs at ran
    cases (EStateM.Result.ok.inj ran).1

theorem popBlock_of_ok (speculative : s.1.readMode = .speculative) (ran : popBlock s = .ok () s') :
    ControllerM.popBlock s.1 = .ok () s'.1 ∧ s'.2 = s.2.add (s.2.trxs s.1.head.id) := by
  unfold popBlock at ran
  rw [get_bind] at ran
  obtain ⟨_, middle, popped, ran⟩ := of_bind_ok ran
  obtain ⟨original, same⟩ := onFirst_of_ok popped
  obtain ⟨-, rfl⟩ := EStateM.Result.ok.inj ran
  refine ⟨original, ?_⟩
  dsimp only
  rw [if_pos speculative, same]

/-- The popped blocks are those of the path down from the head. -/
theorem popBlocks_of_ok (speculative : s.1.readMode = .speculative) (tree : s.1.forkDb.Tree)
    (headHas : s.1.forkDb.Has s.1.head) (commonHas : s.1.forkDb.Has common)
    (path : blockLinkage.Path s.1.forkDb.getBlock s.1.head.id oldBranch common.id)
    (ran : popBlocks oldBranch.length s = .ok () s') :
    s'.2 = oldBranch.foldl (fun recaptured block => recaptured.add (s.2.trxs block.id)) s.2 := by
  induction oldBranch generalizing s with
  | nil =>
    obtain ⟨-, rfl⟩ := EStateM.Result.ok.inj ran
    rfl
  | cons node older ih =>
    cases path with
    | cons found rest =>
      have nodeSame := (ForkDatabase.getBlock_eq_some.mp found).1
      have isHead : node = s.1.head := tree.has_unique (.inr (nodeSame ▸ found)) headHas nodeSame
      rw [isHead] at rest
      have prevSame := ForkDatabase.path_headD rest
      have prevHas := ForkDatabase.has_headD commonHas rest
      rw [← prevSame] at rest
      obtain ⟨_, middle, popped, ran⟩ := of_bind_ok ran
      obtain ⟨controller, recaptured⟩ := popBlock_of_ok speculative popped
      obtain ⟨-, next⟩ := EStateM.Result.ok.inj
        (controller.symm.trans (ControllerM.popBlock_spec tree prevHas prevSame))
      have others := ih (s := middle) (by rw [next]; exact speculative)
        (by rw [next]; exact tree) (by rw [next]; exact prevHas) (by rw [next]; exact commonHas)
        (by rw [next]; exact rest) ran
      rw [others, recaptured, foldl_cons, isHead]
      rfl

theorem applyBlock_of_ok (ran : applyBlock env contents block status s = .ok () s') :
    s'.2 = s.2.erase (contents.inputs block.id) := by
  unfold applyBlock at ran
  cases result : ControllerM.applyBlock env block status s.1 with
  | ok value controller =>
    rw [result] at ran
    obtain ⟨-, rfl⟩ := EStateM.Result.ok.inj ran
    rfl
  | error thrown controller =>
    rw [result] at ran
    cases ran

theorem advanceHead_of_ok (ran : advanceHead env contents block status s = .ok () s') :
    s'.2 = s.2.erase (contents.inputs block.id) := by
  obtain ⟨_, applied, ranApply, ran⟩ := of_bind_ok ran
  obtain ⟨_, marked, ranMark, ranMove⟩ := of_bind_ok ran
  rw [(onFirst_of_ok ranMove).2, (onFirst_of_ok ranMark).2, applyBlock_of_ok ranApply]

theorem undoSwitch_ne_ok {thrown : ChainException} :
    undoSwitch env contents oldBranch applied block thrown s ≠ .ok () s' := by
  intro ran
  obtain ⟨_, _, _, ran⟩ := of_bind_ok ran
  obtain ⟨_, _, _, ran⟩ := of_bind_ok ran
  cases last : oldBranch.getLast? with
  | none =>
    rw [last] at ran
    cases ran
  | some oldest =>
    rw [last] at ran
    obtain ⟨_, _, _, ran⟩ := of_bind_ok ran
    obtain ⟨_, _, _, ran⟩ := of_bind_ok ran
    obtain ⟨_, _, _, ran⟩ := of_bind_ok ran
    cases ran

theorem applyBranch_of_ok {blocks : List BlockState}
    (ran : applyBranch env contents oldBranch applied blocks s = .ok () s') :
    s'.2 = blocks.foldl (fun recaptured block => recaptured.erase (contents.inputs block.id)) s.2 := by
  induction blocks generalizing applied s with
  | nil =>
    obtain ⟨-, rfl⟩ := EStateM.Result.ok.inj ran
    rfl
  | cons block rest ih =>
    unfold applyBranch at ran
    rw [Library.get_bind] at ran
    obtain ⟨caught, middle, attempted, ran⟩ := of_bind_ok ran
    cases caught with
    | none =>
      rw [ih ran, advanceHead_of_ok (attempt_eq_none attempted), foldl_cons]
    | some thrown => exact absurd ran undoSwitch_ne_ok

section

variable (speculative : s.1.readMode = .speculative) (tree : s.1.forkDb.Tree)
  (headHas : s.1.forkDb.Has s.1.head) (newHas : s.1.forkDb.Has newHead)
  (fetched : s.1.forkDb.fetchBranchFrom newHead.id s.1.head.id = .ok (newBranch, oldBranch))

include speculative tree headHas newHas fetched

theorem switchForks_of_ok (ran : switchForks env contents newHead s = .ok () s') :
    s'.2 = newBranch.reverse.foldl
      (fun recaptured block => recaptured.erase (contents.inputs block.id))
      (oldBranch.foldl (fun recaptured block => recaptured.add (s.2.trxs block.id)) s.2) := by
  obtain ⟨newBranch', oldBranch', common, fetched', -, oldPath, commonHas, -⟩ :=
    tree.fetchBranchFrom_spec newHas headHas
  obtain ⟨rfl, rfl⟩ := Prod.mk.inj (Except.ok.inj (fetched'.symm.trans fetched))
  unfold switchForks at ran
  rw [Library.get_bind, fetched] at ran
  dsimp only at ran
  cases last : oldBranch'.getLast? with
  | none =>
    obtain rfl := getLast?_eq_none_iff.mp last
    rw [last] at ran
    exact applyBranch_of_ok ran
  | some oldest =>
    rw [last] at ran
    obtain ⟨_, popped, ranPop, ran⟩ := of_bind_ok ran
    rw [Library.get_bind] at ran
    obtain ⟨_, checked, ranCheck, ran⟩ := of_bind_ok ran
    rw [applyBranch_of_ok ran, (onFirst_of_ok ranCheck).2,
      popBlocks_of_ok speculative tree headHas commonHas oldPath ranPop]

/-- What a switch of forks leaves unapplied: what was unapplied before, or is among the `trxs`
of a popped block, and is not contained in the new branch. -/
theorem mem_unapplied_of_switch {key : Digest} (indirect : newHead.previous ≠ s.1.head.id)
    (moves : newHead.id ≠ s.1.head.id)
    (ran : maybeSwitchForks env contents newHead status s = .ok () s') :
    key ∈ s'.2.unappliedTransactions ↔
      (key ∈ s.2.unappliedTransactions ∨ Recaptured.Among s.2.trxs oldBranch key) ∧
        ¬ Recaptured.Among contents.inputs newBranch key := by
  unfold maybeSwitchForks at ran
  rw [Library.get_bind, if_neg indirect, if_pos moves] at ran
  obtain ⟨_, switched, ranSwitch, ranLog⟩ := of_bind_ok ran
  rw [(onFirst_of_ok ranLog).2, switchForks_of_ok speculative tree headHas newHas fetched ranSwitch,
    Recaptured.mem_eraseAll, Recaptured.mem_addAll, Recaptured.among_reverse]

end

/-- The input transactions of the popped blocks that are not contained in the new branch are all
unapplied after a switch if and only if each of them was before, or is among the `trxs` of a
popped block, as those of blocks are that this node produced or read from its file. -/
theorem switch_recaptures_iff {status : BlockStatus} (speculative : s.1.readMode = .speculative)
    (tree : s.1.forkDb.Tree) (headHas : s.1.forkDb.Has s.1.head) (newHas : s.1.forkDb.Has newHead)
    (fetched : s.1.forkDb.fetchBranchFrom newHead.id s.1.head.id = .ok (newBranch, oldBranch))
    (indirect : newHead.previous ≠ s.1.head.id) (moves : newHead.id ≠ s.1.head.id)
    (ran : maybeSwitchForks env contents newHead status s = .ok () s') :
    (∀ block ∈ oldBranch, ∀ trx ∈ contents.inputs block.id,
      ¬ Recaptured.Among contents.inputs newBranch trx.signedId →
        trx.signedId ∈ s'.2.unappliedTransactions) ↔
    ∀ block ∈ oldBranch, ∀ trx ∈ contents.inputs block.id,
      ¬ Recaptured.Among contents.inputs newBranch trx.signedId →
        trx.signedId ∈ s.2.unappliedTransactions ∨
          Recaptured.Among s.2.trxs oldBranch trx.signedId := by
  refine forall₂_congr fun block _ => forall₂_congr fun trx _ => forall_congr' fun absent => ?_
  rw [mem_unapplied_of_switch speculative tree headHas newHas fetched indirect moves ran]
  exact and_iff_left absent

end Transactions

/-! ### Samples -/

open ControllerM (counting blockA blockB blockC onlyRoot executedA synced_executedA)

def transfer : TransactionMetadata := ⟨5, 6⟩

/-- `blockA` contains one transaction, and the other blocks none. -/
def inBlockA : BlockContents Nat where
  inputs := fun id => if id = blockA.id then [transfer] else []
  progress := fun _ _ _ => (0, false)

def nothingRecaptured : Recaptured := ⟨fun _ => [], ∅⟩

/-- `blockA` is received and applied, and then the blocks of another branch are: the transaction
of `blockA` is in no block of the branch of the head and it is not unapplied. -/
theorem transfer_lost : ∃ afterA afterB afterC,
    pushBlock (counting 0) inBlockA (.ok blockA) (onlyRoot, nothingRecaptured) = .ok () afterA ∧
    pushBlock (counting 0) inBlockA (.ok blockB) afterA = .ok () afterB ∧
    pushBlock (counting 0) inBlockA (.ok blockC) afterB = .ok () afterC ∧
    afterB.1.readMode = .speculative ∧ afterB.1.head = blockA ∧ afterC.1.head = blockC ∧
    transfer ∈ inBlockA.inputs blockA.id ∧
    ¬ Recaptured.Among inBlockA.inputs [blockC, blockB] transfer.signedId ∧
    transfer.signedId ∉ afterC.2.unappliedTransactions := by
  let steps : SpeculativeM Nat (ControllerState Nat) := do
    pushBlock (counting 0) inBlockA (.ok blockA)
    pushBlock (counting 0) inBlockA (.ok blockB)
    let afterB ← get
    pushBlock (counting 0) inBlockA (.ok blockC)
    pure afterB.1
  have ran : ∃ before s', steps (onlyRoot, nothingRecaptured) = .ok before s' ∧
      (before.readMode = .speculative ∧ before.head = blockA ∧ s'.1.head = blockC ∧
        s'.2.unappliedTransactions.keys = []) := by
    apply exists_ok
    decide +kernel
  obtain ⟨_, afterC, ran, mode, headA, headC, none⟩ := ran
  obtain ⟨_, afterA, ranA, ran⟩ := of_bind_ok ran
  obtain ⟨_, afterB, ranB, ran⟩ := of_bind_ok ran
  rw [Library.get_bind] at ran
  obtain ⟨_, _, ranC, ran⟩ := of_bind_ok ran
  obtain ⟨rfl, rfl⟩ := EStateM.Result.ok.inj ran
  refine ⟨afterA, afterB, _, ranA, ranB, ranC, mode, headA, headC, by decide, ?_, ?_⟩
  · unfold Recaptured.Among
    decide
  · rw [AList.mem_keys, none]
    exact not_mem_nil

def producedA : Recaptured :=
  { nothingRecaptured with trxs := Function.update nothingRecaptured.trxs blockA.id [transfer] }

theorem transfer_recaptured : ∃ s',
    maybeSwitchForks (counting 0) inBlockA blockC .complete (executedA, producedA) = .ok () s' ∧
      ∀ block ∈ [blockA], ∀ trx ∈ inBlockA.inputs block.id,
        ¬ Recaptured.Among inBlockA.inputs [blockC, blockB] trx.signedId →
          trx.signedId ∈ s'.2.unappliedTransactions := by
  have ran : ∃ value s', maybeSwitchForks (counting 0) inBlockA blockC .complete
      (executedA, producedA) = .ok value s' ∧ True := by
    apply exists_ok
    decide +kernel
  obtain ⟨_, s', ran, -⟩ := ran
  refine ⟨s', ran, ?_⟩
  refine (switch_recaptures_iff rfl synced_executedA.ranked.tree synced_executedA.headHas (.inr rfl) rfl
    (by decide) (by decide) ran).mpr ?_
  intro block member trx contained _
  obtain rfl := mem_singleton.mp member
  exact .inr ⟨blockA, member, trx, contained, rfl⟩

end SpeculativeM

end CodexRelay.Chain
