import CodexRelay.Chain.Types
import CodexRelay.Library.Ancestry
import CodexRelay.Library.OrderStatistic

/-!
Contract: the fork database of `fork_database.cpp`.

Owns:
- `BlockState`, what the fork database and the controller read of a
  `block_state`;
- the index with its unique ids and its order `by_lib_block_num`;
- `reset`, `rollback_head_to_root`, `add`, `pending_head`, `fetch_branch`,
  `fetch_branch_from`, `remove`, `mark_valid` and `advance_root`.

Does not own: reading and writing the file of the fork database.

An operation that changes the database keeps the changes it made before it
throws. Loops that follow `previous` links or collect descendants get as much
fuel as they can use.
-/

namespace CodexRelay.Chain

open Library List

/-- What is read of a `block_state`. A block id starts with the block number, the
block is one after the block it names as previous, and its LIB is a number that
an earlier block proposed. -/
structure BlockState where
  id : BlockId
  previous : BlockId
  blockNum : Nat
  dposIrreversibleBlocknum : Nat
  idNum : BlockHeader.numFromId id = blockNum
  previousNum : BlockHeader.numFromId previous + 1 = blockNum
  libBelow : dposIrreversibleBlocknum < blockNum
deriving DecidableEq

/-- Blocks are linked by ids; the block number counts the generations. -/
def blockLinkage : Linkage BlockId BlockState where
  key := BlockState.id
  parent := BlockState.previous
  generation := BlockHeader.numFromId
  generation_key block := by rw [block.idNum, block.previousNum]

def firstPreferred (lhs rhs : BlockState) : Prop :=
  rhs.dposIrreversibleBlocknum < lhs.dposIrreversibleBlocknum ∨
    lhs.dposIrreversibleBlocknum = rhs.dposIrreversibleBlocknum ∧ rhs.blockNum < lhs.blockNum

instance : DecidableRel firstPreferred := fun _ _ => inferInstanceAs (Decidable (_ ∨ _))

/-! ### The index -/

@[ext] structure ForkEntry where
  block : BlockState
  validated : Bool
deriving DecidableEq

/-- The order of `by_lib_block_num`: validated blocks first, then by descending
LIB and number, then by id. -/
def ForkEntry.precedes (first second : ForkEntry) : Prop :=
  first.validated = true ∧ second.validated = false ∨
    first.validated = second.validated ∧
      (firstPreferred first.block second.block ∨
        first.block.dposIrreversibleBlocknum = second.block.dposIrreversibleBlocknum ∧
          first.block.blockNum = second.block.blockNum ∧ first.block.id < second.block.id)

instance : DecidableRel ForkEntry.precedes := fun _ _ => inferInstanceAs (Decidable (_ ∨ _))

/-- `fork_multi_index_type`; ids are unique. -/
structure ForkIndex where
  entries : List ForkEntry
  unique : (entries.map (·.block.id)).Nodup
deriving DecidableEq

namespace ForkIndex

def find (index : ForkIndex) (id : BlockId) : Option ForkEntry :=
  index.entries.find? (·.block.id = id)

variable (index : ForkIndex)

/-- `begin()` of `by_lib_block_num`. -/
def begin : Option ForkEntry :=
  firstBy ForkEntry.precedes index.entries

/-- `lower_bound( false )` of `by_lib_block_num`. -/
def beginUnvalidated : Option ForkEntry :=
  firstBy ForkEntry.precedes (index.entries.filter (·.validated = false))

/-- `insert`; `none` when the id is taken. -/
def insert (block : BlockState) : Option ForkIndex :=
  if fresh : block.id ∈ index.entries.map (·.block.id) then none
  else some
    { entries := ⟨block, false⟩ :: index.entries
      unique := nodup_cons.mpr ⟨fresh, index.unique⟩ }

/-- `erase`, of every block whose id is listed. -/
def erase (ids : List BlockId) : ForkIndex where
  entries := index.entries.filter (·.block.id ∉ ids)
  unique := index.unique.sublist (filter_sublist.map _)

/-- `modify`, setting the flag `validated`. -/
def setValidated (id : BlockId) : ForkIndex where
  entries := index.entries.map fun entry =>
    if entry.block.id = id then { entry with validated := true } else entry
  unique := by
    rw [map_map]
    convert index.unique using 1
    refine map_congr_left fun entry _ => ?_
    simp only [Function.comp_apply]
    split <;> rfl

/-- `modify` of every block, taking the flag `validated` back. -/
def clearValidated : ForkIndex where
  entries := index.entries.map fun entry => { entry with validated := false }
  unique := by
    rw [map_map]
    exact index.unique

end ForkIndex

/-! ### The database -/

structure ForkDatabase where
  index : ForkIndex
  root : BlockState
  head : BlockState
deriving DecidableEq

abbrev ForkDatabaseM := EStateM ChainException ForkDatabase

namespace ForkDatabase

variable (db : ForkDatabase)

def getBlock (id : BlockId) : Option BlockState :=
  (db.index.find id).map (·.block)

/-- `get_block_header`, which also knows the root. -/
def getBlockHeader (id : BlockId) : Option BlockState :=
  if db.root.id = id then some db.root else db.getBlock id

/-- `is_valid()` of a block of the database; the root is valid. -/
def isValid (id : BlockId) : Bool :=
  match db.index.find id with
  | some entry => entry.validated
  | none => db.root.id = id

def reset (rootBhs : BlockState) : ForkDatabaseM Unit :=
  set { index := ⟨[], nodup_nil⟩, root := rootBhs, head := rootBhs : ForkDatabase }

def rollbackHeadToRoot : ForkDatabaseM Unit :=
  modify fun db => { db with index := db.index.clearValidated, head := db.root }

def add (n : BlockState) (ignoreDuplicate : Bool) : ForkDatabaseM Unit := do
  let db ← get
  if db.getBlockHeader n.previous = none then
    throw ⟨.unlinkableBlockException, "unlinkable block"⟩
  match db.index.insert n with
  | none =>
    if ignoreDuplicate then return ()
    else throw ⟨.forkDatabaseException, "duplicate block added"⟩
  | some index =>
    match index.begin with
    | some ⟨candidate, true⟩ => set { db with index, head := candidate }
    | _ => set { db with index }

def pendingHead : BlockState :=
  match db.index.beginUnvalidated with
  | some candidate => if firstPreferred candidate.block db.head then candidate.block else db.head
  | none => db.head

/-- The blocks from `h` to the root, the newest first and without the root. -/
def branch (h : BlockId) : List BlockState :=
  blockLinkage.ancestry db.getBlock h

def fetchBranch (h : BlockId) (trimAfterBlockNum : Nat) : List BlockState :=
  (db.branch h).filter (·.blockNum ≤ trimAfterBlockNum)

def blockNotFound : ChainException := ⟨.forkDbBlockNotFound, "block ${id} does not exist"⟩

def fetchLinked (id : BlockId) : Checked BlockState :=
  match db.getBlockHeader id with
  | some block => .ok block
  | none => .error blockNotFound

/-- The loop of `fetch_branch_from` that walks down to block number `target`. -/
def walkDown (db : ForkDatabase) (target : Nat) :
    (fuel : Nat) → BlockState → Checked (List BlockState × BlockState)
  | 0, block => .ok ([], block)
  | fuel + 1, block =>
    if target < block.blockNum then do
      let prev ← db.fetchLinked block.previous
      let (branch, reached) ← walkDown db target fuel prev
      return (block :: branch, reached)
    else .ok ([], block)

/-- The last loop of `fetch_branch_from` and the two blocks after it. -/
def walkToFork (db : ForkDatabase) :
    (fuel : Nat) → BlockState → BlockState → Checked (List BlockState × List BlockState)
  | 0, first, second => .ok ([first], [second])
  | fuel + 1, first, second =>
    if first.previous ≠ second.previous then
      match db.getBlock first.previous, db.getBlock second.previous with
      | some firstPrev, some secondPrev => do
          let (firstBranch, secondBranch) ← walkToFork db fuel firstPrev secondPrev
          return (first :: firstBranch, second :: secondBranch)
      | _, _ => .error blockNotFound
    else .ok ([first], [second])

/-- `fetch_branch_from`: "return two branches of the fork graph that end with a
common ancestor (same prior block)". -/
def fetchBranchFrom (first second : BlockId) : Checked (List BlockState × List BlockState) := do
  let firstBlock ← db.fetchLinked first
  let secondBlock ← db.fetchLinked second
  let (firstBranch, firstBlock) ← db.walkDown secondBlock.blockNum firstBlock.blockNum firstBlock
  let (secondBranch, secondBlock) ← db.walkDown firstBlock.blockNum secondBlock.blockNum secondBlock
  if firstBlock.id = secondBlock.id then return (firstBranch, secondBranch)
  let (firstRest, secondRest) ← db.walkToFork firstBlock.blockNum firstBlock secondBlock
  return (firstBranch ++ firstRest, secondBranch ++ secondRest)

/-- The ids of the blocks that name `id` as previous. -/
def children (index : ForkIndex) (id : BlockId) : List BlockId :=
  (index.entries.filter (·.block.previous = id)).map (·.block.id)

/-- The queue of `remove`: `queue` is still to be visited, and a visited id puts
its children at the end. Returns the ids in the order of the visits. -/
def removeQueue (index : ForkIndex) (headId : BlockId) :
    (fuel : Nat) → (queue : List BlockId) → Checked (List BlockId)
  | 0, _ => .ok []
  | _ + 1, [] => .ok []
  | fuel + 1, id :: queue => do
      eosAssert (id ≠ headId) .forkDatabaseException
        "removing the block and its descendants would remove the current head block"
      let visited ← removeQueue index headId fuel (queue ++ children index id)
      return id :: visited

/-- `remove`: "remove all of the invalid forks built off of this id including
this id". -/
def remove (id : BlockId) : ForkDatabaseM Unit := do
  let db ← get
  match removeQueue db.index db.head.id (db.index.entries.length + 1) [id] with
  | .ok removed => set { db with index := db.index.erase removed }
  | .error thrown => throw thrown

def markValid (h : BlockState) : ForkDatabaseM Unit := do
  let db ← get
  if db.isValid h.id then return ()
  if db.getBlock h.id = none then
    throw ⟨.forkDatabaseException, "block state not in fork database; cannot mark as valid"⟩
  let index := db.index.setValidated h.id
  match index.begin with
  | some candidate =>
    if firstPreferred candidate.block db.head then
      set { db with index, head := candidate.block }
    else set { db with index }
  | none => set { db with index }

def advanceRoot (id : BlockId) : ForkDatabaseM Unit := do
  let db ← get
  match db.getBlock id with
  | none =>
    throw ⟨.forkDatabaseException,
      "cannot advance root to a block that does not exist in the fork database"⟩
  | some newRoot =>
    if !db.isValid id then
      throw ⟨.forkDatabaseException,
        "cannot advance root to a block that has not yet been validated"⟩
    let blocksToRemove := (db.branch id).map (·.previous)
    if blocksToRemove.getLast? ≠ some db.root.id then
      throw ⟨.forkDatabaseException,
        "invariant violation: orphaned branch was present in forked database"⟩
    set { db with index := db.index.erase [id] }
    blocksToRemove.forM remove
    modify fun db => { db with root := newRoot }

end ForkDatabase

end CodexRelay.Chain
