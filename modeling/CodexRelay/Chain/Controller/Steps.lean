import CodexRelay.Chain.Controller.Model
import CodexRelay.Chain.ForkDatabase.Preference

/-!
Contract: what the single steps of the controller do.

Owns:
- `applyOutcome`, what applying a block comes to as a function of the chain state;
- the result of `apply_block`, `pop_block` and of applying or popping a whole
  branch, as states.

Does not own: the invariant of the controller and the fork switch.
-/

namespace CodexRelay.Chain

open Library List ForkDatabase BlockHeader

variable {test : Prop} {code : ExceptionCode} {what : String} {signal : Signal}
  {caught : ChainException → Bool} {failure : ApplyThrow}

namespace ControllerM

variable {χ : Type} {env : Environment χ} {s s' : ControllerState χ} {block : BlockState}
  {status : BlockStatus}

/-! ### Assertions, signals and exceptions -/

theorem assert_of_true [Decidable test] (holds : test) :
    (assert test code what : ControllerM χ Unit) s = .ok () s := by
  unfold assert
  rw [if_pos holds]
  rfl

theorem assert_of_false [Decidable test] (fails : ¬ test) :
    (assert test code what : ControllerM χ Unit) s = .error ⟨code, what⟩ s := by
  unfold assert
  rw [if_neg fails]
  rfl

theorem emit_of_none (quiet : passedOn env signal block = none) :
    emit env signal block s = .ok () s := by
  unfold emit
  rw [quiet]
  rfl

theorem emit_of_some {thrown : ChainException} (throws : passedOn env signal block = some thrown) :
    emit env signal block s = .error thrown s := by
  unfold emit
  rw [throws]
  rfl

section Bodies

variable {body : ControllerM χ Unit} {thrown : ChainException}

theorem captureAndRethrow_of_ok (ran : body s = .ok () s') :
    captureAndRethrow env body s = .ok () s' :=
  tryCatch_of_ok ran

theorem captureAndRethrow_of_error (ran : body s = .error thrown s') :
    captureAndRethrow env body s = .error (rethrown env thrown) s' :=
  tryCatch_of_error ran

theorem abortingOn_of_ok (ran : body s = .ok () s') :
    abortingOn caught body s = .ok () s' :=
  tryCatch_of_ok ran

theorem abortingOn_of_error (ran : body s = .error thrown s') :
    abortingOn caught body s =
      .error thrown { s' with pending := if caught thrown then none else s'.pending } := by
  unfold abortingOn
  rw [tryCatch_of_error ran]
  cases isCaught : caught thrown <;> simp only [Bool.false_eq_true, if_false, if_true] <;> rfl

theorem attempt_of_ok (ran : body s = .ok () s') : attempt body s = .ok none s' := by
  unfold attempt
  rw [ran]

theorem attempt_of_error (ran : body s = .error thrown s') (isFc : thrown.code.isFc = true) :
    attempt body s = .ok (some thrown) s' := by
  unfold attempt
  rw [ran]
  dsimp only
  rw [if_pos isFc]

theorem attempt_of_other (ran : body s = .error thrown s') (notFc : thrown.code.isFc = false) :
    attempt body s = .error thrown s' := by
  unfold attempt
  rw [ran]
  dsimp only
  rw [if_neg (by simp [notFc])]

end Bodies

theorem onForkDb_of_ok {call : ForkDatabaseM Unit} {forkDb : ForkDatabase}
    (ran : call s.forkDb = .ok () forkDb) :
    (onForkDb call : ControllerM χ Unit) s = .ok () { s with forkDb } := by
  unfold onForkDb
  rw [ran]

theorem onForkDb_of_error {call : ForkDatabaseM Unit} {forkDb : ForkDatabase}
    {thrown : ChainException} (ran : call s.forkDb = .error thrown forkDb) :
    (onForkDb call : ControllerM χ Unit) s = .error thrown { s with forkDb } := by
  unfold onForkDb
  rw [ran]

/-! ### `apply_block` -/

def Vacant (s : ControllerState χ) (block : BlockState) : Prop :=
  ∀ stored ∈ s.reversibleBlocks, stored.blockNum ≠ block.blockNum

structure Ready (s : ControllerState χ) (block : BlockState) : Prop where
  idle : s.pending = none
  mode : s.readMode ≠ .irreversible
  onPar : s.db.revision = s.head.blockNum
  onHead : block.previous = s.head.id

/-- A throw of `apply_block`: what leaves it, whether the pending block was aborted,
and whether the reversible block had been created. -/
structure ApplyThrow where
  thrown : ChainException
  aborted : Bool
  stored : Bool

def applyOutcome (env : Environment χ) (status : BlockStatus) (state : χ) (block : BlockState) :
    Except ApplyThrow χ :=
  match env.start status state block with
  | some thrown => .error ⟨rethrown env thrown, true, false⟩
  | none =>
    match env.exec status state block with
    | .error thrown => .error ⟨rethrown env thrown, thrown.code.isFc, false⟩
    | .ok session =>
      match env.create block with
      | some thrown => .error ⟨rethrown env thrown, true, false⟩
      | none =>
        match passedOn env .acceptedBlock block with
        | some thrown => .error ⟨rethrown env thrown, true, true⟩
        | none => .ok session

theorem createReversible_of_vacant (vacant : Vacant s block) (created : env.create block = none) :
    createReversible env block s =
      .ok () { s with reversibleBlocks := block :: s.reversibleBlocks } := by
  unfold Vacant at vacant
  unfold createReversible
  rw [get_bind, created]
  dsimp only
  rw [bind_of_ok (assert_of_true vacant)]
  rfl

theorem createReversible_of_full {thrown : ChainException} (full : env.create block = some thrown) :
    createReversible env block s = .error thrown s := by
  unfold createReversible
  rw [get_bind, full]
  rfl

theorem createReversible_of_taken (taken : ¬ Vacant s block) (created : env.create block = none) :
    ∃ thrown, createReversible env block s = .error thrown s := by
  unfold Vacant at taken
  unfold createReversible
  rw [get_bind, created]
  dsimp only
  exact ⟨_, bind_of_error (assert_of_false taken)⟩

section Start

variable (ready : Ready s block)

include ready

theorem startBlock_of_ready (starts : env.start status s.db.state block = none) :
    startBlock env block status s = .ok () { s with pending := some .building } := by
  unfold startBlock
  rw [get_bind, bind_of_ok (assert_of_true (by rw [ready.idle]; rfl))]
  refine abortingOn_of_ok ?_
  rw [bind_of_ok (assert_of_true ready.onPar), set_bind, starts]
  rfl

theorem startBlock_of_throw {thrown : ChainException}
    (throws : env.start status s.db.state block = some thrown) :
    startBlock env block status s = .error thrown s := by
  have reset : ∀ body, body s = .error thrown { s with pending := some .building } →
      abortingOn (fun _ => true) body s = .error thrown s := by
    intro body ran
    rw [abortingOn_of_error ran, if_pos rfl, ← ready.idle]
  unfold startBlock
  rw [get_bind, bind_of_ok (assert_of_true (by rw [ready.idle]; rfl))]
  apply reset
  rw [bind_of_ok (assert_of_true ready.onPar), set_bind, throws]
  rfl

end Start

section CommitApplied

/-! `commit_block( false )`, by what creating the reversible block and the signal do. -/

variable {session : χ} {thrown : ChainException}

section

variable (mode : s.readMode ≠ .irreversible) (pending : s.pending = some (.completed block session))

include mode pending

theorem commitWith_of_throw (created : createReversible env block s = .error thrown s') :
    commitWith env (fun _ => pure ()) (pure ()) s = .error thrown { s' with pending := none } := by
  unfold commitWith
  rw [get_bind, pending]
  dsimp only
  rw [bind_of_error (abortingOn_of_error _)]
  · rfl
  · rw [pure_bind_run, if_pos mode, bind_of_error created]

section

variable (created : createReversible env block s = .ok () s')

include created

theorem commitWith_of_signal (signal : passedOn env .acceptedBlock block = some thrown) :
    commitWith env (fun _ => pure ()) (pure ()) s = .error thrown { s' with pending := none } := by
  unfold commitWith
  rw [get_bind, pending]
  dsimp only
  rw [bind_of_error (abortingOn_of_error _)]
  · rfl
  · rw [pure_bind_run, if_pos mode, bind_of_ok created, pure_bind_run, emit_of_some signal]

theorem commitWith_of_quiet (quiet : passedOn env .acceptedBlock block = none) :
    commitWith env (fun _ => pure ()) (pure ()) s =
      .ok () { s' with db := s'.db.push session, pending := none } := by
  unfold commitWith
  rw [get_bind, pending]
  dsimp only
  rw [bind_of_ok (abortingOn_of_ok _)]
  · rfl
  · rw [pure_bind_run, if_pos mode, bind_of_ok created, pure_bind_run, emit_of_none quiet]

end

end

end CommitApplied

section

variable (ready : Ready s block) (starts : env.start status s.db.state block = none)

include ready starts

theorem applySession_of_throw {thrown : ChainException}
    (failed : env.exec status s.db.state block = .error thrown) :
    applySession env block status s = .error thrown { s with pending := some .building } := by
  unfold applySession
  rw [bind_of_ok (startBlock_of_ready ready starts), get_bind, failed]
  rfl

/-- A block whose transactions succeed goes to `commit_block( false )`. -/
theorem applySession_of_exec {session : χ}
    (executed : env.exec status s.db.state block = .ok session) :
    applySession env block status s = commitWith env (fun _ => pure ()) (pure ())
        { s with pending := some (.completed block session) } := by
  unfold applySession
  rw [bind_of_ok (startBlock_of_ready ready starts), get_bind, executed]
  dsimp only
  rw [bind_of_ok (assert_of_true ready.onHead)]
  rfl

end

theorem applyBlock_of_ok {session : χ} (ready : Ready s block) (vacant : Vacant s block)
    (outcome : applyOutcome env status s.db.state block = .ok session) :
    applyBlock env block status s =
      .ok () { s with
        db := s.db.push session, reversibleBlocks := block :: s.reversibleBlocks } := by
  unfold applyOutcome at outcome
  split at outcome
  case h_1 => cases outcome
  case h_2 starts =>
    split at outcome
    case h_1 => cases outcome
    case h_2 result executed =>
      split at outcome
      case h_1 => cases outcome
      case h_2 created =>
        split at outcome
        case h_1 => cases outcome
        case h_2 quiet =>
          obtain rfl := Except.ok.inj outcome
          refine captureAndRethrow_of_ok (abortingOn_of_ok ?_)
          have committed := commitWith_of_quiet
            (s := { s with pending := some (.completed block result) }) ready.mode rfl
            (createReversible_of_vacant vacant created) quiet
          rw [applySession_of_exec ready starts executed, committed, ready.idle]

def afterThrow (s : ControllerState χ) (block : BlockState) (failure : ApplyThrow) :
    ControllerState χ :=
  { s with
    pending := if failure.aborted then none else some .building
    reversibleBlocks :=
      if failure.stored then block :: s.reversibleBlocks else s.reversibleBlocks }

/-- `commit_block` has aborted the block before `apply_block` could. -/
theorem applyBlock_of_abort {thrown : ChainException} (idle : s'.pending = none)
    (ran : applySession env block status s = .error thrown s') :
    applyBlock env block status s = .error (rethrown env thrown) s' := by
  unfold applyBlock
  rw [captureAndRethrow_of_error (abortingOn_of_error ran), idle, ite_self, ← idle]

theorem applyBlock_of_error (ready : Ready s block) (vacant : Vacant s block)
    (outcome : applyOutcome env status s.db.state block = .error failure) :
    applyBlock env block status s = .error failure.thrown (afterThrow s block failure) := by
  unfold applyOutcome at outcome
  split at outcome
  case h_1 thrown throws =>
    obtain rfl := Except.error.inj outcome
    rw [applyBlock_of_abort ready.idle (bind_of_error (startBlock_of_throw ready throws)),
      afterThrow, if_pos rfl, if_neg Bool.false_ne_true, ← ready.idle]
  case h_2 starts =>
    split at outcome
    case h_1 thrown failed =>
      obtain rfl := Except.error.inj outcome
      exact captureAndRethrow_of_error
        (abortingOn_of_error (applySession_of_throw ready starts failed))
    case h_2 session executed =>
      have applied := applySession_of_exec ready starts executed
      split at outcome
      case h_1 thrown full =>
        obtain rfl := Except.error.inj outcome
        have committed := commitWith_of_throw
          (s := { s with pending := some (.completed block session) }) ready.mode rfl
          (createReversible_of_full full)
        exact applyBlock_of_abort rfl (applied.trans committed)
      case h_2 created =>
        split at outcome
        case h_1 thrown signal =>
          obtain rfl := Except.error.inj outcome
          have committed := commitWith_of_signal
            (s := { s with pending := some (.completed block session) }) ready.mode rfl
            (createReversible_of_vacant vacant created) signal
          exact applyBlock_of_abort rfl (applied.trans committed)
        case h_2 => cases outcome

/-- A block whose number is taken in the reversible blocks cannot be applied. -/
theorem applyBlock_of_taken {session : χ} (ready : Ready s block) (taken : ¬ Vacant s block)
    (outcome : applyOutcome env status s.db.state block = .ok session) :
    ∃ thrown, applyBlock env block status s = .error thrown s := by
  unfold applyOutcome at outcome
  split at outcome
  case h_1 => cases outcome
  case h_2 starts =>
    split at outcome
    case h_1 => cases outcome
    case h_2 result executed =>
      split at outcome
      case h_1 => cases outcome
      case h_2 created =>
        obtain ⟨thrown, full⟩ := createReversible_of_taken
          (s := { s with pending := some (.completed block result) }) taken created
        have committed := (applySession_of_exec ready starts executed).trans
          (commitWith_of_throw ready.mode rfl full)
        refine ⟨rethrown env thrown, ?_⟩
        rw [applyBlock_of_abort rfl committed, ← ready.idle]

/-- A block cannot be applied while there is a pending block, which is aborted. -/
theorem applyBlock_of_busy {stage : PendingState χ} (busy : s.pending = some stage) :
    ∃ thrown, applyBlock env block status s = .error thrown { s with pending := none } := by
  have ran : ∃ thrown : ChainException, thrown.code.isFc = true ∧
      applySession env block status s = .error thrown s := by
    refine ⟨⟨.blockValidateException, "pending block already exists"⟩, rfl, bind_of_error ?_⟩
    unfold startBlock
    rw [get_bind]
    exact bind_of_error (assert_of_false (by simp [busy]))
  obtain ⟨thrown, isFc, ran⟩ := ran
  refine ⟨rethrown env thrown, ?_⟩
  unfold applyBlock
  rw [captureAndRethrow_of_error (abortingOn_of_error ran), isFc, if_pos rfl]

theorem popBlock_spec {prev : BlockState} (tree : s.forkDb.Tree) (has : s.forkDb.Has prev)
    (same : prev.id = s.head.previous) :
    popBlock s = .ok () { s with
      reversibleBlocks := s.reversibleBlocks.filter (·.blockNum ≠ s.head.blockNum)
      head := prev
      db := s.db.undo } := by
  unfold popBlock
  rw [get_bind, ← same]
  rcases has with rfl | found
  · rw [tree.getBlock_root]
    dsimp only
    rw [bind_of_ok (assert_of_true rfl)]
    rfl
  · rw [found]
    rfl

theorem popBlocks_spec {popped : List BlockState} {common : BlockState} (tree : s.forkDb.Tree)
    (headHas : s.forkDb.Has s.head) (commonHas : s.forkDb.Has common)
    (path : blockLinkage.Path s.forkDb.getBlock s.head.id popped common.id) :
    popBlocks popped.length s = .ok () { s with
      reversibleBlocks := s.reversibleBlocks.filter fun stored =>
        stored.blockNum ≤ common.blockNum ∨ s.head.blockNum < stored.blockNum
      head := common
      db := s.db.undos popped.length } := by
  induction popped generalizing s with
  | nil =>
    obtain rfl := tree.has_unique headHas commonHas (Linkage.Path.nil_iff.mp path)
    have all : s.reversibleBlocks.filter (fun stored =>
        stored.blockNum ≤ s.head.blockNum ∨ s.head.blockNum < stored.blockNum) =
          s.reversibleBlocks :=
      filter_eq_self.mpr fun stored _ => decide_eq_true (Nat.lt_or_ge _ _).symm
    rw [all]
    rfl
  | cons node older ih =>
    cases path with
    | cons found rest =>
      have nodeSame := (ForkDatabase.getBlock_eq_some.mp found).1
      have isHead : node = s.head := tree.has_unique (.inr (nodeSame ▸ found)) headHas nodeSame
      rw [isHead] at rest
      have prevSame := path_headD rest
      have prevHas := has_headD commonHas rest
      rw [← prevSame] at rest
      have level := num_of_previous prevSame
      have above := path_num_eq rest
      have popped := popBlock_spec tree prevHas prevSame
      have others := ih (s := { s with
        reversibleBlocks := s.reversibleBlocks.filter (·.blockNum ≠ s.head.blockNum)
        head := older.headD common
        db := s.db.undo }) tree prevHas commonHas rest
      change (popBlock >>= fun _ => popBlocks older.length) s = _
      rw [bind_of_ok popped, others]
      dsimp only
      rw [filter_filter]
      have same : ∀ stored : BlockState,
          (decide (stored.blockNum ≤ common.blockNum ∨
              (older.headD common).blockNum < stored.blockNum) &&
            decide (stored.blockNum ≠ s.head.blockNum)) =
            decide (stored.blockNum ≤ common.blockNum ∨ s.head.blockNum < stored.blockNum) := by
        intro stored
        rw [← Bool.decide_and, decide_eq_decide]
        omega
      simp only [same]
      rfl

/-! ### Applying a branch -/

/-- `Applies env status bottom blocks states`: applied one after the other to the chain
state `bottom`, the blocks lead to `states` (both newest first). -/
inductive Applies (env : Environment χ) (status : BlockState → BlockStatus) (bottom : χ) :
    List BlockState → List χ → Prop where
  | nil : Applies env status bottom [] []
  | cons {blocks : List BlockState} {states : List χ} {block : BlockState} {session : χ}
      (before : Applies env status bottom blocks states)
      (outcome : applyOutcome env (status block) (states.headD bottom) block = .ok session) :
      Applies env status bottom (block :: blocks) (session :: states)

namespace Applies

variable {statusOf statusOf' : BlockState → BlockStatus} {bottom : χ} {blocks newer older : List BlockState}
  {states states' : List χ}

section

variable (applies : Applies env statusOf bottom blocks states)

include applies

theorem length_eq : states.length = blocks.length := by
  induction applies with
  | nil => rfl
  | cons _ _ ih => simp [ih]

theorem unique (applies' : Applies env statusOf bottom blocks states') : states = states' := by
  induction applies generalizing states' with
  | nil =>
    cases applies'
    rfl
  | cons _ outcome ih =>
    cases applies' with
    | cons before' outcome' =>
      obtain rfl := ih before'
      rw [outcome] at outcome'
      rw [Except.ok.inj outcome']

end

theorem append {newStates oldStates : List χ} (below : Applies env statusOf bottom older oldStates)
    (above : Applies env statusOf (oldStates.headD bottom) newer newStates) :
    Applies env statusOf bottom (newer ++ older) (newStates ++ oldStates) := by
  induction above with
  | nil => exact below
  | @cons blocks states _ _ _ outcome ih =>
    refine .cons ih ?_
    cases states with
    | nil => exact outcome
    | cons => exact outcome

theorem split (applies : Applies env statusOf bottom (newer ++ older) states) :
    ∃ newStates oldStates, states = newStates ++ oldStates ∧
      Applies env statusOf bottom older oldStates ∧
      Applies env statusOf (oldStates.headD bottom) newer newStates := by
  induction newer generalizing states with
  | nil => exact ⟨[], states, rfl, applies, .nil⟩
  | cons block newer ih =>
    cases applies with
    | @cons _ states' _ session before outcome =>
      obtain ⟨newStates, oldStates, rfl, below, above⟩ := ih before
      refine ⟨session :: newStates, oldStates, rfl, below, .cons above ?_⟩
      cases newStates with
      | nil => exact outcome
      | cons => exact outcome

theorem mono (applies : Applies env statusOf bottom blocks states)
    (stronger : ∀ block ∈ blocks, ∀ state session,
      applyOutcome env (statusOf block) state block = .ok session →
        applyOutcome env (statusOf' block) state block = .ok session) :
    Applies env statusOf' bottom blocks states := by
  induction applies with
  | nil => exact .nil
  | cons _ outcome ih =>
    obtain ⟨own, rest⟩ := forall_mem_cons.mp stronger
    exact .cons (ih rest) (own _ _ outcome)

end Applies

/-- `count` more blocks can be applied to the head. -/
structure Open (s : ControllerState χ) (count : Nat) : Prop where
  idle : s.pending = none
  mode : s.readMode ≠ .irreversible
  onPar : s.db.revision = s.head.blockNum
  free : ∀ stored ∈ s.reversibleBlocks,
    stored.blockNum ≤ s.head.blockNum ∨ s.head.blockNum + count < stored.blockNum

def ascended (s : ControllerState χ) (blocks : List BlockState) (states : List χ)
    (forkDb : ForkDatabase) : ControllerState χ :=
  { s with
    forkDb
    head := blocks.headD s.head
    db := s.db.pushes states
    reversibleBlocks := blocks ++ s.reversibleBlocks }

section Ascent

variable {blocks older : List BlockState} {states : List χ} {forkDb : ForkDatabase} {count : Nat}
  {id : BlockId}

theorem Open.ready (isOpen : Open s count) (length : states.length = older.length)
    (path : blockLinkage.Path s.forkDb.getBlock block.previous older s.head.id) :
    Ready (ascended s older states forkDb) block where
  idle := isOpen.idle
  mode := isOpen.mode
  onPar := by
    have reached := path_headD path
    have level : (older.headD s.head).blockNum = s.head.blockNum + older.length := by
      rw [← reached] at path
      exact path_num_eq path
    change (s.db.pushes states).revision = (older.headD s.head).blockNum
    rw [UndoStack.pushes_revision, isOpen.onPar, length, level]
  onHead := (path_headD path).symm

theorem Open.vacant (isOpen : Open s count) (inside : older.length < count)
    (path : blockLinkage.Path s.forkDb.getBlock block.previous older s.head.id) :
    Vacant (ascended s older states forkDb) block := by
  have level : block.blockNum = s.head.blockNum + older.length + 1 := by
    have counted := path.generation_eq s.forkDb.keyed
    change numFromId block.previous = numFromId s.head.id + _ at counted
    rw [s.head.idNum] at counted
    have own := block.previousNum
    omega
  intro stored member
  rcases mem_append.mp member with applied | before
  · have le := path.generation_le s.forkDb.keyed applied
    change numFromId stored.id ≤ numFromId block.previous at le
    have own := block.previousNum
    have storedNum := stored.idNum
    omega
  · have := isOpen.free stored before
    omega

theorem advanceHead_of_ok {session : χ} (ready : Ready s block) (vacant : Vacant s block)
    (found : s.forkDb.getBlock block.id = some block)
    (outcome : applyOutcome env status s.db.state block = .ok session) :
    ∃ forkDb, Marked s.forkDb forkDb block ∧
      advanceHead env block status s = .ok () (ascended s [block] [session] forkDb) := by
  obtain ⟨forkDb, ran, marked⟩ := markValid_spec found
  refine ⟨forkDb, marked, ?_⟩
  unfold advanceHead
  refine (bind_of_ok (applyBlock_of_ok ready vacant outcome)).trans ?_
  exact bind_of_ok (onForkDb_of_ok (s := { s with
    db := s.db.push session, reversibleBlocks := block :: s.reversibleBlocks }) ran)

theorem advanceHead_of_error (ready : Ready s block) (vacant : Vacant s block)
    (outcome : applyOutcome env status s.db.state block = .error failure) :
    advanceHead env block status s = .error failure.thrown (afterThrow s block failure) := by
  unfold advanceHead
  rw [bind_of_error (applyBlock_of_error ready vacant outcome)]

def statusIn (forkDb : ForkDatabase) (block : BlockState) : BlockStatus :=
  if forkDb.isValid block.id then .validated else .complete

section Loop

variable {oldBranch rest : List BlockState} {applied : Nat} {thrown : ChainException}

theorem applyBranch_of_ok (ran : advanceHead env block (statusIn s.forkDb block) s = .ok () s') :
    applyBranch env oldBranch applied (block :: rest) s =
      applyBranch env oldBranch (applied + 1) rest s' := by
  change (attempt (advanceHead env block (statusIn s.forkDb block)) >>= _) s = _
  rw [bind_of_ok (attempt_of_ok ran)]

section

variable (ran : advanceHead env block (statusIn s.forkDb block) s = .error thrown s')

include ran

theorem applyBranch_of_error (isFc : thrown.code.isFc = true) :
    applyBranch env oldBranch applied (block :: rest) s =
      undoSwitch env oldBranch applied block thrown s' := by
  change (attempt (advanceHead env block (statusIn s.forkDb block)) >>= _) s = _
  rw [bind_of_ok (attempt_of_error ran isFc)]

theorem applyBranch_of_other (notFc : thrown.code.isFc = false) :
    applyBranch env oldBranch applied (block :: rest) s = .error thrown s' := by
  change (attempt (advanceHead env block (statusIn s.forkDb block)) >>= _) s = _
  rw [bind_of_error (attempt_of_other ran notFc)]

end

theorem reapplyBlocks_of_ok (ran : applyBlock env block .validated s = .ok () s') :
    reapplyBlocks env (block :: rest) s = reapplyBlocks env rest { s' with head := block } := by
  rw [reapplyBlocks.eq_2, bind_of_ok ran, modify_bind]

theorem reapplyBlocks_of_error (ran : applyBlock env block .validated s = .error thrown s') :
    reapplyBlocks env (block :: rest) s = .error thrown s' := by
  rw [reapplyBlocks.eq_2, bind_of_error ran]

end Loop

theorem statusIn_eq_of_markedAll {forkDb forkDb' : ForkDatabase} (tree : forkDb.Tree)
    (all : MarkedAll forkDb older forkDb')
    (found : ∀ block ∈ older, forkDb.getBlock block.id = some block)
    (other : ∀ earlier ∈ older, block.id ≠ earlier.id) :
    statusIn forkDb' block = statusIn forkDb block := by
  have same : forkDb'.isValid block.id = forkDb.isValid block.id := by
    rw [Bool.eq_iff_iff, all.isValid_iff tree found]
    exact or_iff_left fun ⟨earlier, member, same⟩ => other earlier member same
  unfold statusIn
  rw [same]

theorem ne_of_path {earlier : BlockState} {top : BlockId}
    (path : blockLinkage.Path s.forkDb.getBlock block.previous older top)
    (member : earlier ∈ older) : block.id ≠ earlier.id := by
  intro same
  have le := path.generation_le s.forkDb.keyed member
  change numFromId earlier.id ≤ numFromId block.previous at le
  rw [← same, block.idNum] at le
  have own := block.previousNum
  omega

section

variable (isOpen : Open s count) (enough : blocks.length ≤ count)

include isOpen enough

theorem applyBranch_of_applies (tree : s.forkDb.Tree)
    (path : blockLinkage.Path s.forkDb.getBlock id blocks s.head.id)
    (applies : Applies env (statusIn s.forkDb) s.db.state blocks states) :
    ∃ forkDb, MarkedAll s.forkDb blocks forkDb ∧ ∀ oldBranch applied rest,
      applyBranch env oldBranch applied (blocks.reverse ++ rest) s =
        applyBranch env oldBranch (applied + blocks.length) rest
          (ascended s blocks states forkDb) := by
  induction applies generalizing id with
  | nil => exact ⟨s.forkDb, .nil, fun _ _ _ => rfl⟩
  | @cons older states block session before outcome ih =>
    cases path with
    | cons found path =>
      have same := (ForkDatabase.getBlock_eq_some.mp found).1
      have inside : older.length < count := enough
      obtain ⟨middle, all, ran⟩ := ih inside.le path
      have ready : Ready (ascended s older states middle) block :=
        isOpen.ready before.length_eq path
      have vacant : Vacant (ascended s older states middle) block := isOpen.vacant inside path
      have statusSame := statusIn_eq_of_markedAll tree all (path.found s.forkDb.keyed)
        fun earlier member => ne_of_path path member
      have applied : applyOutcome env (statusIn (ascended s older states middle).forkDb block)
          (ascended s older states middle).db.state block = .ok session := by
        change applyOutcome env (statusIn middle block) (s.db.pushes states).state block = _
        rw [statusSame, UndoStack.pushes_state]
        exact outcome
      obtain ⟨forkDb, marked, advanced⟩ := advanceHead_of_ok ready vacant
        (by change middle.getBlock block.id = _; rw [all.getBlock_eq, same, found]) applied
      refine ⟨forkDb, .cons all marked, fun oldBranch count rest => ?_⟩
      rw [reverse_cons, append_assoc, ran, singleton_append,
        applyBranch_of_ok advanced, length_cons, Nat.add_assoc]
      rfl

/-- "re-apply good blocks" -/
theorem reapplyBlocks_of_applies (path : blockLinkage.Path s.forkDb.getBlock id blocks s.head.id)
    (applies : Applies env (fun _ => .validated) s.db.state blocks states) (rest : List BlockState) :
    reapplyBlocks env (blocks.reverse ++ rest) s =
      reapplyBlocks env rest (ascended s blocks states s.forkDb) := by
  induction applies generalizing id rest with
  | nil => rfl
  | @cons older states block session before outcome ih =>
    cases path with
    | cons found path =>
      have inside : older.length < count := enough
      have ready : Ready (ascended s older states s.forkDb) block :=
        isOpen.ready before.length_eq path
      have vacant : Vacant (ascended s older states s.forkDb) block := isOpen.vacant inside path
      rw [reverse_cons, append_assoc, ih inside.le path, singleton_append]
      have applied : applyOutcome env .validated (ascended s older states s.forkDb).db.state block =
          .ok session := by
        change applyOutcome env _ (s.db.pushes states).state block = _
        rw [UndoStack.pushes_state]
        exact outcome
      rw [reapplyBlocks_of_ok (applyBlock_of_ok ready vacant applied)]
      rfl

end

end Ascent

end ControllerM

end CodexRelay.Chain
