import CodexRelay.Chain.ForkDatabase.Model
import CodexRelay.Library.UndoStack

/-!
Contract: how the controller applies blocks, switches forks and makes blocks
irreversible, as `controller.cpp` does it.

Owns:
- the state: head, fork database, chain state, reversible blocks, block log and
  pending block;
- `pop_block`, `apply_block`, `commit_block`, `abort_block`, `log_irreversible`,
  `maybe_switch_forks` and `push_block`.

Does not own: the execution of transactions. `Environment.exec` says what a block
does to the chain state. Signal handlers, disk and memory belong to the
environment as well, since they can make a step throw, and so do the macros of
`fc` through which an exception leaves a function.

A throw keeps the changes made before it. The chain state is that of `chainbase`,
a submodule: a stack of revisions, of which an open block session is not yet one.
-/

namespace CodexRelay.Chain

open Library

inductive BlockStatus where
  | irreversible
  | validated
  | complete
  | incomplete

inductive DbReadMode where
  | speculative
  | head
  | readOnly
  | irreversible
deriving DecidableEq

inductive Signal where
  | preAcceptedBlock
  | acceptedBlockHeader
  | acceptedBlock
  | irreversibleBlock
deriving DecidableEq

structure Environment (χ : Type) where
  /-- What `start_block` throws once there is a pending block: a protocol feature that is not
  activated in order, or the onblock transaction for lack of memory. -/
  start : BlockStatus → χ → BlockState → Option ChainException := fun _ _ _ => none
  /-- The chain state after the transactions of a block, or what one of them or
  `finalize_block` throws. -/
  exec : BlockStatus → χ → BlockState → Checked χ
  /-- What a signal handler throws. -/
  handler : Signal → BlockState → Option ChainException
  /-- What `reversible_blocks.create` throws for lack of memory. -/
  create : BlockState → Option ChainException
  /-- What `commit` of the chain state throws. -/
  commit : BlockState → Option ChainException
  /-- What `block_log::append` throws for a failing disk. -/
  append : BlockState → Option ChainException
  /-- What leaves `FC_CAPTURE_AND_RETHROW` and `FC_LOG_AND_RETHROW`. They turn other
  exceptions into an `fc::exception`, never the other way round. -/
  rethrow : ChainException → ChainException
  rethrow_isFc : ∀ thrown, thrown.code.isFc → (rethrow thrown).code.isFc

/-- `block_log`, the oldest block first. -/
structure BlockLog where
  firstBlockNum : Nat
  blocks : List BlockState
deriving DecidableEq

namespace BlockLog

def head (blog : BlockLog) : Option BlockState := blog.blocks.getLast?

def libNum (blog : BlockLog) : Nat :=
  match blog.head with
  | some logHead => logHead.blockNum
  | none => blog.firstBlockNum - 1

end BlockLog

/-- `pending_state`, by the stage of its block. A completed block comes with the
chain state of its session. -/
inductive PendingState (χ : Type) where
  | building
  | assembled
  | completed (blockState : BlockState) (session : χ)
deriving DecidableEq

/-- The modelled part of `controller_impl`. -/
structure ControllerState (χ : Type) where
  forkDb : ForkDatabase
  head : BlockState
  db : UndoStack χ
  reversibleBlocks : List BlockState
  blog : BlockLog
  readMode : DbReadMode
  pending : Option (PendingState χ)
deriving DecidableEq

abbrev ControllerM (χ : Type) := EStateM ChainException (ControllerState χ)

namespace ControllerM

variable {χ : Type}

def assert (test : Prop) [Decidable test] (code : ExceptionCode) (what : String) :
    ControllerM χ Unit :=
  if test then pure () else throw ⟨code, what⟩

def onForkDb (call : ForkDatabaseM Unit) : ControllerM χ Unit := fun s =>
  match call s.forkDb with
  | .ok _ forkDb => .ok () { s with forkDb }
  | .error thrown forkDb => .error thrown { s with forkDb }

/-- `try { body } catch( const fc::exception& )`: the exception that was caught. -/
def attempt (body : ControllerM χ Unit) : ControllerM χ (Option ChainException) := fun s =>
  match body s with
  | .ok _ s' => .ok none s'
  | .error thrown s' => if thrown.code.isFc then .ok (some thrown) s' else .error thrown s'

variable (env : Environment χ)

def rethrown (thrown : ChainException) : ChainException :=
  if thrown.code = .fault then thrown else env.rethrow thrown

/-- The end of a function with `FC_CAPTURE_AND_RETHROW` or `FC_LOG_AND_RETHROW`. -/
def captureAndRethrow (body : ControllerM χ Unit) : ControllerM χ Unit :=
  tryCatch body fun thrown => throw (rethrown env thrown)

/-- What `emit` passes on: exceptions that must not be lost. It drops the others. -/
def passedOn (signal : Signal) (block : BlockState) : Option ChainException :=
  (env.handler signal block).filter fun thrown =>
    thrown.code = .badAlloc ∨ thrown.code = .interprocessBadAlloc ∨
      thrown.code = .controllerEmitSignalException

def emit (signal : Signal) (block : BlockState) : ControllerM χ Unit :=
  match passedOn env signal block with
  | none => pure ()
  | some thrown => throw thrown

def popBlock : ControllerM χ Unit := do
  let s ← get
  let prev ← match s.forkDb.getBlock s.head.previous with
    | some prev => pure prev
    | none =>
      assert (s.forkDb.root.id = s.head.previous) .blockValidateException
        "attempt to pop beyond last irreversible block"
      pure s.forkDb.root
  set { s with
    reversibleBlocks := s.reversibleBlocks.filter (·.blockNum ≠ s.head.blockNum)
    head := prev
    db := s.db.undo }

/-- `abort_block` gives up the session of the pending block. -/
def abortBlock : ControllerM χ Unit :=
  modify fun s => { s with pending := none }

/-- `catch` of the exceptions that `caught` selects with `abort_block(); throw;`. -/
def abortingOn (caught : ChainException → Bool) (body : ControllerM χ Unit) : ControllerM χ Unit :=
  tryCatch body fun thrown => do
    if caught thrown then abortBlock
    throw thrown

/-- `reversible_blocks.create`; block numbers are unique. -/
def createReversible (block : BlockState) : ControllerM χ Unit := do
  let s ← get
  match env.create block with
  | some thrown => throw thrown
  | none =>
    assert (∀ stored ∈ s.reversibleBlocks, stored.blockNum ≠ block.blockNum) .logicError
      "could not insert object, most likely a uniqueness constraint was violated"
    set { s with reversibleBlocks := block :: s.reversibleBlocks }

def appendLog (block : BlockState) : ControllerM χ Unit :=
  captureAndRethrow env do
    let s ← get
    assert (s.blog.blocks.length + s.blog.firstBlockNum = block.blockNum) .blockLogAppendFail
      "Append to index file occuring at wrong position."
    match env.append block with
    | some thrown => throw thrown
    | none => set { s with blog := { s.blog with blocks := s.blog.blocks ++ [block] } }

/-- `pending->push()`, after which there is no pending block. -/
def pushSession (session : χ) : ControllerM χ Unit :=
  modify fun s => { s with db := s.db.push session, pending := none }

/-- `commit_block`; `enter` and `settle` are its two steps under `add_to_fork_db`. -/
def commitWith (enter : BlockState → ControllerM χ Unit)
    (settle : ControllerM χ Unit) : ControllerM χ Unit := do
  let s ← get
  match s.pending with
  | none => throw ⟨.fault, "commit_block without a pending block"⟩
  | some (.completed block session) =>
    abortingOn (fun _ => true) do
      enter block
      if s.readMode ≠ .irreversible then createReversible env block
      settle
      emit env .acceptedBlock block
    pushSession session
  | some _ =>
    abortingOn (fun _ => true) do
      throw ⟨.blockValidateException, "cannot call commit_block until pending block is completed"⟩

/-- `start_block`. After its first assertion, whatever is thrown resets the pending block. -/
def startBlock (block : BlockState) (status : BlockStatus) : ControllerM χ Unit := do
  let s ← get
  assert (s.pending.isNone) .blockValidateException "pending block already exists"
  abortingOn (fun _ => true) do
    assert (s.db.revision = s.head.blockNum) .databaseException
      "db revision is not on par with head block"
    set { s with pending := some .building }
    match env.start status s.db.state block with
    | some thrown => throw thrown
    | none => pure ()

/-- The `try` of `apply_block`. The block id holds the id of the previous block, and
what else it holds is compared in `exec`. -/
def applySession (block : BlockState) (status : BlockStatus) :
    ControllerM χ Unit := do
  startBlock env block status
  let s ← get
  match env.exec status s.db.state block with
  | .error thrown => throw thrown
  | .ok session =>
    assert (block.previous = s.head.id) .blockValidateException "Block ID does not match"
    set { s with pending := some (.completed block session) }
    commitWith env (fun _ => pure ()) (pure ())

def applyBlock (block : BlockState) (status : BlockStatus) :
    ControllerM χ Unit :=
  captureAndRethrow env (abortingOn (·.code.isFc) (applySession env block status))

/-- The `catch` of `log_irreversible` around one of its steps: the root advances to
the last block that was made irreversible. -/
def advancingRoot (rootId : BlockId) (body : ControllerM χ Unit) : ControllerM χ Unit := do
  match ← attempt body with
  | none => pure ()
  | some thrown =>
    let s ← get
    if rootId ≠ s.forkDb.root.id then onForkDb (ForkDatabase.advanceRoot rootId)
    throw thrown

/-- `db.commit`. -/
def commitDb (block : BlockState) : ControllerM χ Unit :=
  match env.commit block with
  | some thrown => throw thrown
  | none => modify fun s => { s with db := s.db.commit block.blockNum }

/-- The first step of the loop of `log_irreversible`: the read mode IRREVERSIBLE applies blocks only
now. -/
def applyIrreversible (block : BlockState) : ControllerM χ Unit := do
  if (← get).readMode = .irreversible then
    applyBlock env block .complete
    modify fun s => { s with head := block }
    onForkDb (ForkDatabase.markValid block)

/-- The steps of the loop before `root_id` is set. -/
def makeIrreversible (block : BlockState) : ControllerM χ Unit := do
  applyIrreversible env block
  emit env .irreversibleBlock block
  commitDb env block

/-- The loop of `log_irreversible`; returns the id of the last block. -/
def logBlocks (env : Environment χ) : (rootId : BlockId) → List BlockState → ControllerM χ BlockId
  | rootId, [] => pure rootId
  | rootId, block :: rest => do
      advancingRoot rootId (makeIrreversible env block)
      advancingRoot block.id (appendLog env block)
      modify fun s =>
        { s with reversibleBlocks := s.reversibleBlocks.filter (block.blockNum < ·.blockNum) }
      logBlocks env block.id rest

def logIrreversible : ControllerM χ Unit := do
  let s ← get
  match s.blog.head with
  | some logHead =>
    assert (s.forkDb.root.id = logHead.id) .forkDatabaseException
      "fork database root does not match block log head"
  | none =>
    assert (s.forkDb.root.blockNum = s.blog.libNum) .forkDatabaseException
      "empty block log expects the first appended block to build off a block that is not the fork database root"
  let forkHead := if s.readMode = .irreversible then s.forkDb.pendingHead else s.forkDb.head
  if s.blog.libNum < forkHead.dposIrreversibleBlocknum then
    let branch := s.forkDb.fetchBranch forkHead.id forkHead.dposIrreversibleBlocknum
    let rootId ← logBlocks env s.forkDb.root.id branch.reverse
    if rootId ≠ (← get).forkDb.root.id then onForkDb (ForkDatabase.advanceRoot rootId)

/-- The first step of `commit_block` under `add_to_fork_db`. -/
def enterForkDb (block : BlockState) : ControllerM χ Unit := do
  onForkDb (ForkDatabase.add block false)
  onForkDb (ForkDatabase.markValid block)
  emit env .acceptedBlockHeader block
  modify fun s => { s with head := s.forkDb.head }
  assert (block = (← get).head) .forkDatabaseException
    "committed block did not become the new head in fork database"

/-- `commit_block( true )`, of the block that this node produced. -/
def commitBlock : ControllerM χ Unit :=
  commitWith env (enterForkDb env) (logIrreversible env)

/-- `apply_block`, `mark_valid` and the move of the head, as both loops of
`maybe_switch_forks` do them. -/
def advanceHead (block : BlockState) (status : BlockStatus) :
    ControllerM χ Unit := do
  applyBlock env block status
  onForkDb (ForkDatabase.markValid block)
  modify fun s => { s with head := block }

def popBlocks : Nat → ControllerM χ Unit
  | 0 => pure ()
  | count + 1 => do
      popBlock
      popBlocks count

def reapplyBlocks (env : Environment χ) : List BlockState → ControllerM χ Unit
  | [] => pure ()
  | block :: rest => do
      applyBlock env block .validated
      modify fun s => { s with head := block }
      reapplyBlocks env rest

/-- The error path of the switch: `block` threw after `applied` blocks of the new
branch were applied. -/
def undoSwitch (oldBranch : List BlockState) (applied : Nat)
    (block : BlockState) (thrown : ChainException) : ControllerM χ Unit := do
  onForkDb (ForkDatabase.remove block.id)
  popBlocks applied
  match oldBranch.getLast? with
  | none => throw ⟨.fault, "back() of an empty branch"⟩
  | some oldest =>
    assert ((← get).head.id = oldest.previous) .forkDatabaseException
      "loss of sync between fork_db and chainbase during fork switch reversal"
    reapplyBlocks env oldBranch.reverse
    throw thrown

/-- The loop of the switch over the new branch, the oldest block first. -/
def applyBranch (env : Environment χ) (oldBranch : List BlockState) :
    (applied : Nat) → List BlockState → ControllerM χ Unit
  | _, [] => pure ()
  | applied, block :: rest => do
      let status := if (← get).forkDb.isValid block.id then .validated else .complete
      match ← attempt (advanceHead env block status) with
      | none => applyBranch env oldBranch (applied + 1) rest
      | some thrown => undoSwitch env oldBranch applied block thrown

/-- The switch from the head to a block that is not built directly on it. -/
def switchForks (newHead : BlockState) : ControllerM χ Unit := do
  let s ← get
  match s.forkDb.fetchBranchFrom newHead.id s.head.id with
  | .error thrown => throw thrown
  | .ok (newBranch, oldBranch) =>
    match oldBranch.getLast? with
    | none => pure ()
    | some oldest =>
      popBlocks oldBranch.length
      assert ((← get).head.id = oldest.previous) .forkDatabaseException
        "loss of sync between fork_db and chainbase during fork switch"
    applyBranch env oldBranch 0 newBranch.reverse

def maybeSwitchForks (newHead : BlockState) (status : BlockStatus) :
    ControllerM χ Unit := do
  let s ← get
  if newHead.previous = s.head.id then
    match ← attempt (advanceHead env newHead status) with
    | none => logIrreversible env
    | some thrown =>
      onForkDb (ForkDatabase.remove newHead.id)
      throw thrown
  else if newHead.id ≠ s.head.id then
    switchForks env newHead
    logIrreversible env

/-- `push_block`. The future holds the block state or the exception of its
construction. -/
def pushBlock (future : Checked BlockState) :
    ControllerM χ Unit := do
  assert (← get).pending.isNone .blockValidateException
    "it is not valid to push a block when there is a pending block"
  captureAndRethrow env do
    match future with
    | .error thrown => throw thrown
    | .ok block =>
      emit env .preAcceptedBlock block
      onForkDb (ForkDatabase.add block false)
      emit env .acceptedBlockHeader block
      let s ← get
      if s.readMode ≠ .irreversible then
        maybeSwitchForks env s.forkDb.pendingHead .complete
      else logIrreversible env

end ControllerM

end CodexRelay.Chain
