import CodexRelay.Chain.Controller.Steps

/-!
Contract: the invariant of the controller between two calls.

Owns:
- `Replays`: a block that was executed can be executed again as a validated one;
- `Executed`: the undo stack holds the chain states of the head's branch, and every
  validated block can be executed on the chain state of the root;
- `Synced`: head, fork database, chain state and reversible blocks agree;
- that going down to an earlier block and up another branch keep both.
-/

namespace CodexRelay.Chain

open Library List ForkDatabase BlockHeader UndoStack

variable {statusOf : BlockState → BlockStatus}

namespace ControllerM

variable {χ : Type} {env : Environment χ} {s : ControllerState χ} {block common : BlockState}
  {bottom : χ} {states : List χ}

/-- `bottom` is the chain state of the root, `states` are those of the blocks on the
branch of the head. -/
structure Executed (env : Environment χ) (s : ControllerState χ) (bottom : χ) (states : List χ) :
    Prop where
  head : Applies env (fun _ => .complete) bottom (s.forkDb.branch s.head.id) states
  db : s.db = (⟨bottom, [], s.forkDb.root.blockNum⟩ : UndoStack χ).pushes states
  others : ∀ entry ∈ s.forkDb.index.entries, entry.validated = true →
    ∃ others, Applies env (fun _ => .complete) bottom (s.forkDb.branch entry.block.id) others

/-- The invariant of the controller, outside the read mode IRREVERSIBLE. -/
structure Synced (env : Environment χ) (s : ControllerState χ) : Prop where
  idle : s.pending = none
  mode : s.readMode ≠ .irreversible
  ranked : s.forkDb.Ranked
  headHas : s.forkDb.Has s.head
  headValid : s.forkDb.isValid s.head.id = true
  executed : ∃ bottom states, Executed env s bottom states
  stored : s.reversibleBlocks = s.forkDb.branch s.head.id

theorem Executed.revision (executed : Executed env s bottom states) (tree : s.forkDb.Tree)
    (has : s.forkDb.Has s.head) : s.db.revision = s.head.blockNum := by
  rw [executed.db, pushes_revision, executed.head.length_eq]
  exact (path_num_eq (tree.branch_path has)).symm

theorem Synced.isOpen (synced : Synced env s) (count : Nat) : Open s count where
  idle := synced.idle
  mode := synced.mode
  onPar := by
    obtain ⟨bottom, states, executed⟩ := synced.executed
    exact executed.revision synced.ranked.tree synced.headHas
  free := by
    intro stored member
    rw [synced.stored] at member
    have path := synced.ranked.tree.branch_path synced.headHas
    have le := path.generation_le s.forkDb.keyed member
    change numFromId stored.id ≤ numFromId s.head.id at le
    rw [stored.idNum, s.head.idNum] at le
    exact .inl le

theorem Synced.ready (synced : Synced env s) (direct : block.previous = s.head.id) :
    Ready s block ∧ Vacant s block := by
  have isOpen := synced.isOpen 1
  refine ⟨⟨isOpen.idle, isOpen.mode, isOpen.onPar, direct⟩, fun stored member => ?_⟩
  have := isOpen.free stored member
  have := num_of_previous direct.symm
  omega

/-! ### Down to an earlier block -/

def rewound (s : ControllerState χ) (common : BlockState) (popped : List BlockState) :
    ControllerState χ :=
  { s with
    head := common
    db := s.db.undos popped.length
    reversibleBlocks := s.forkDb.branch common.id }

section Rewinding

variable {popped : List BlockState}

/-- What is stored of a path lies between its two ends, so that `pop_block` removes it. -/
theorem filter_branch (stored : List BlockState) {head : BlockState} (tree : s.forkDb.Tree)
    (has : s.forkDb.Has common)
    (path : blockLinkage.Path s.forkDb.getBlock head.id popped common.id)
    (above : ∀ block ∈ stored, head.blockNum < block.blockNum) :
    (stored ++ (popped ++ s.forkDb.branch common.id)).filter (fun block =>
      block.blockNum ≤ common.blockNum ∨ head.blockNum < block.blockNum) =
        stored ++ s.forkDb.branch common.id := by
  have newer : stored.filter (fun block =>
      block.blockNum ≤ common.blockNum ∨ head.blockNum < block.blockNum) = stored :=
    filter_eq_self.mpr fun block member => decide_eq_true (.inr (above block member))
  have middle : popped.filter (fun block =>
      block.blockNum ≤ common.blockNum ∨ head.blockNum < block.blockNum) = [] := by
    refine filter_eq_nil_iff.mpr fun block member => ?_
    have le := path.generation_le s.forkDb.keyed member
    have lt := path.lt_generation s.forkDb.keyed member
    change numFromId block.id ≤ numFromId head.id at le
    change numFromId common.id < numFromId block.id at lt
    rw [block.idNum, head.idNum] at le
    rw [block.idNum, common.idNum] at lt
    simp only [decide_eq_true_eq]
    omega
  have older : (s.forkDb.branch common.id).filter (fun block =>
      block.blockNum ≤ common.blockNum ∨ head.blockNum < block.blockNum) =
        s.forkDb.branch common.id := by
    refine filter_eq_self.mpr fun block member => decide_eq_true (.inl ?_)
    have le := (tree.branch_path has).generation_le s.forkDb.keyed member
    change numFromId block.id ≤ numFromId common.id at le
    rwa [block.idNum, common.idNum] at le
  rw [filter_append, filter_append, newer, middle, older, nil_append]

variable (synced : Synced env s) (executed : Executed env s bottom states) (tree : s.forkDb.Tree)
  (has : s.forkDb.Has common)
  (path : blockLinkage.Path s.forkDb.getBlock s.head.id popped common.id)

include has path

include synced in
theorem Synced.popBlocks_eq :
    popBlocks popped.length s = .ok () (rewound s common popped) := by
  have tree := synced.ranked.tree
  have filtered : s.reversibleBlocks.filter (fun stored =>
      stored.blockNum ≤ common.blockNum ∨ s.head.blockNum < stored.blockNum) =
        s.forkDb.branch common.id := by
    rw [synced.stored, tree.branch_of_path has path]
    have below := filter_branch [] tree has path (by simp)
    rwa [nil_append, nil_append] at below
  refine (popBlocks_spec tree synced.headHas has path).trans ?_
  unfold rewound
  rw [filtered]

include executed tree in
/-- The chain states of the popped blocks are on top of those of the branch below. -/
theorem Executed.rewind :
    ∃ newStates oldStates, states = newStates ++ oldStates ∧
      Executed env (rewound s common popped) bottom oldStates ∧
      Applies env (fun _ => .complete) (rewound s common popped).db.state popped newStates ∧
      s.db = (rewound s common popped).db.pushes newStates := by
  have applies := executed.head
  rw [tree.branch_of_path has path] at applies
  obtain ⟨newStates, oldStates, rfl, below, above⟩ := applies.split
  have stack := executed.db
  rw [pushes_append] at stack
  have undone : s.db.undos popped.length =
      (⟨bottom, [], s.forkDb.root.blockNum⟩ : UndoStack χ).pushes oldStates := by
    rw [stack, ← above.length_eq, undos_pushes]
  refine ⟨newStates, oldStates, rfl, ⟨below, undone, executed.others⟩, ?_, ?_⟩
  · change Applies env _ (s.db.undos popped.length).state popped newStates
    rw [undone, pushes_state]
    exact above
  · change s.db = (s.db.undos popped.length).pushes newStates
    rw [undone]
    exact stack

include synced in
theorem Synced.rewind : Synced env (rewound s common popped) where
  idle := synced.idle
  mode := synced.mode
  ranked := synced.ranked
  headHas := has
  headValid := (synced.ranked.valid_of_path path synced.headValid).1
  executed := by
    obtain ⟨bottom, states, executed⟩ := synced.executed
    obtain ⟨_, oldStates, -, below, -⟩ := executed.rewind synced.ranked.tree has path
    exact ⟨bottom, oldStates, below⟩
  stored := rfl

end Rewinding

/-! ### Up a branch -/

/-- A block that was executed can be executed again as a validated one, with the same
result. -/
structure Replays (env : Environment χ) : Prop where
  start : ∀ state block, env.start .complete state block = none →
    env.start .validated state block = none
  exec : ∀ state block session, env.exec .complete state block = .ok session →
    env.exec .validated state block = .ok session

/-- The two statuses with which a block is applied in these read modes. -/
def IsApplied (status : BlockStatus) : Prop :=
  status = .complete ∨ status = .validated

theorem isApplied_statusIn (forkDb : ForkDatabase) (block : BlockState) :
    IsApplied (statusIn forkDb block) := by
  unfold statusIn
  split
  · exact .inr rfl
  · exact .inl rfl

theorem Replays.applyOutcome (replays : Replays env) {status : BlockStatus} {state session : χ}
    (isApplied : IsApplied status) (outcome : applyOutcome env .complete state block = .ok session) :
    applyOutcome env status state block = .ok session := by
  rcases isApplied with rfl | rfl
  · exact outcome
  · unfold ControllerM.applyOutcome at outcome ⊢
    cases starts : env.start .complete state block with
    | some thrown =>
      rw [starts] at outcome
      cases outcome
    | none =>
      rw [starts] at outcome
      rw [replays.start _ _ starts]
      cases executed : env.exec .complete state block with
      | error thrown =>
        rw [executed] at outcome
        cases outcome
      | ok result =>
        rw [executed] at outcome
        rw [replays.exec _ _ _ executed]
        exact outcome

theorem Replays.applies (replays : Replays env) {blocks : List BlockState}
    (areApplied : ∀ block ∈ blocks, IsApplied (statusOf block))
    (applies : Applies env (fun _ => .complete) bottom blocks states) :
    Applies env statusOf bottom blocks states :=
  applies.mono fun block member _ _ outcome => replays.applyOutcome (areApplied block member) outcome

section Ascending

variable {id : BlockId} {blocks : List BlockState} {newStates : List χ} {forkDb : ForkDatabase}

section

variable (executed : Executed env s bottom states) (tree : s.forkDb.Tree)
  (has : s.forkDb.Has s.head) (path : blockLinkage.Path s.forkDb.getBlock id blocks s.head.id)

include tree has path

theorem branch_ascended (all : MarkedAll s.forkDb blocks forkDb) :
    forkDb.branch (blocks.headD s.head).id = blocks ++ s.forkDb.branch s.head.id := by
  rw [all.branch_eq, path_headD path]
  exact tree.branch_of_path has path

include executed

theorem Executed.applies_of_valid (valid : s.forkDb.isValid id = true) :
    ∃ newStates, Applies env (fun _ => .complete) s.db.state blocks newStates := by
  obtain ⟨others, applies⟩ : ∃ others,
      Applies env (fun _ => .complete) bottom (s.forkDb.branch id) others := by
    rcases tree.isValid_iff.mp valid with isRoot | ⟨entry, member, same, validated⟩
    · rw [isRoot, tree.branch_root]
      exact ⟨[], .nil⟩
    · rw [← same]
      exact executed.others entry member validated
  rw [tree.branch_of_path has path] at applies
  obtain ⟨newStates, oldStates, -, below, above⟩ := applies.split
  obtain rfl := below.unique executed.head
  refine ⟨newStates, ?_⟩
  rw [executed.db, pushes_state]
  exact above

/-- A branch that the switch applies could be applied without skipping checks: its
validated blocks were before, and it is with the others. -/
theorem Executed.applies_complete (replays : Replays env)
    (applies : Applies env (statusIn s.forkDb) s.db.state blocks newStates) :
    Applies env (fun _ => .complete) s.db.state blocks newStates := by
  induction applies generalizing id with
  | nil => exact .nil
  | @cons older olderStates block session before outcome ih =>
    cases valid : s.forkDb.isValid id with
    | true =>
      obtain ⟨again, appliesAgain⟩ := executed.applies_of_valid tree has path valid
      have same := (replays.applies (fun block _ => isApplied_statusIn s.forkDb block)
        appliesAgain).unique (before.cons outcome)
      rwa [same] at appliesAgain
    | false =>
      cases path with
      | cons found path =>
        refine .cons (ih path) ?_
        unfold statusIn at outcome
        rwa [(ForkDatabase.getBlock_eq_some.mp found).1, valid, if_neg (by simp)] at outcome

theorem Executed.ascend (all : MarkedAll s.forkDb blocks forkDb)
    (applies : Applies env (fun _ => .complete) s.db.state blocks newStates) :
    Executed env (ascended s blocks newStates forkDb) bottom (newStates ++ states) := by
  rw [executed.db, pushes_state] at applies
  have joined := executed.head.append applies
  refine ⟨?_, ?_, fun entry member validated => ?_⟩
  · change Applies env _ bottom (forkDb.branch (blocks.headD s.head).id) _
    rw [branch_ascended tree has path all]
    exact joined
  · change s.db.pushes newStates =
      (⟨bottom, [], forkDb.root.blockNum⟩ : UndoStack χ).pushes (newStates ++ states)
    rw [pushes_append, all.root, ← executed.db]
  · change ∃ others, Applies env _ bottom (forkDb.branch entry.block.id) others
    have found := path.found s.forkDb.keyed
    have valid : forkDb.isValid entry.block.id = true := by
      change entry ∈ forkDb.index.entries at member
      rw [isValid_of_mem member, validated]
    rw [all.branch_eq]
    rcases (all.isValid_iff tree found).mp valid with before | ⟨marked, markedMem, same⟩
    · rcases tree.isValid_iff.mp before with isRoot | ⟨old, oldMem, same, oldValid⟩
      · rw [isRoot, tree.branch_root]
        exact ⟨[], .nil⟩
      · rw [← same]
        exact executed.others old oldMem oldValid
    · -- A block of the new branch: its own branch is the lower part of it.
      obtain ⟨newer, older, rfl⟩ := append_of_mem markedMem
      obtain ⟨middle, -, below⟩ := path.split
      have start := path_headD below
      change marked.id = middle at start
      rw [same, start, tree.branch_of_path has below]
      rw [append_assoc] at joined
      obtain ⟨_, lower, -, lowerApplies, -⟩ := joined.split
      exact ⟨lower, lowerApplies⟩

end

theorem Synced.ascend (synced : Synced env s) (all : ForkDatabase.MarkedAll s.forkDb blocks forkDb)
    (path : blockLinkage.Path s.forkDb.getBlock id blocks s.head.id)
    (applies : Applies env (fun _ => .complete) s.db.state blocks newStates) :
    Synced env (ascended s blocks newStates forkDb) where
  idle := synced.idle
  mode := synced.mode
  ranked := all.ranked synced.ranked path synced.headValid
  headHas := all.has_iff.mpr (has_headD synced.headHas path)
  headValid := by
    change forkDb.isValid (blocks.headD s.head).id = true
    rw [all.isValid_iff synced.ranked.tree (path.found s.forkDb.keyed)]
    cases blocks with
    | nil => exact .inl synced.headValid
    | cons block older => exact .inr ⟨block, mem_cons_self, rfl⟩
  executed := by
    obtain ⟨bottom, states, executed⟩ := synced.executed
    exact ⟨bottom, _, executed.ascend synced.ranked.tree synced.headHas path all applies⟩
  stored := by
    change blocks ++ s.reversibleBlocks = forkDb.branch (blocks.headD s.head).id
    rw [branch_ascended synced.ranked.tree synced.headHas path all, synced.stored]

theorem Synced.not_valid_of_throw (synced : Synced env s) (replays : Replays env)
    {older : List BlockState} {failure : ApplyThrow}
    (areApplied : ∀ block, IsApplied (statusOf block))
    (found : s.forkDb.getBlock block.id = some block)
    (path : blockLinkage.Path s.forkDb.getBlock block.previous older s.head.id)
    (applies : Applies env statusOf s.db.state older newStates)
    (throws : applyOutcome env (statusOf block) (newStates.headD s.db.state) block = .error failure) :
    s.forkDb.isValid block.id = false := by
  by_contra valid
  obtain ⟨bottom, states, executed⟩ := synced.executed
  obtain ⟨all, appliesAll⟩ := executed.applies_of_valid synced.ranked.tree synced.headHas
    (.cons found path) (by simpa using valid)
  cases replays.applies (fun block _ => areApplied block) appliesAll with
  | cons before outcome =>
    obtain rfl := before.unique applies
    rw [throws] at outcome
    cases outcome

end Ascending

/-- The head is the root and no block is validated: so a chain starts, and so does a node
whose read mode was IRREVERSIBLE before, with the blocks it has not executed. -/
theorem Synced.of_root (tree : s.forkDb.Tree) (idle : s.pending = none)
    (mode : s.readMode ≠ .irreversible) (forkHead : s.forkDb.head = s.forkDb.root)
    (head : s.head = s.forkDb.root)
    (unvalidated : ∀ entry ∈ s.forkDb.index.entries, entry.validated = false)
    (db : s.db = ⟨bottom, [], s.forkDb.root.blockNum⟩) (stored : s.reversibleBlocks = []) :
    Synced env s where
  idle := idle
  mode := mode
  ranked := {
    tree
    headHas := .inl forkHead
    headValid := by rw [forkHead, tree.isValid_root]
    closed := by
      intro entry member validated
      rw [unvalidated entry member] at validated
      cases validated
    best := by
      intro entry member validated
      rw [unvalidated entry member] at validated
      cases validated }
  headHas := .inl head
  headValid := by rw [head, tree.isValid_root]
  executed := by
    refine ⟨bottom, [], ?_, db, fun entry member validated => ?_⟩
    · rw [head, tree.branch_root]
      exact .nil
    · rw [unvalidated entry member] at validated
      cases validated
  stored := by rw [stored, head, tree.branch_root]

end ControllerM

end CodexRelay.Chain
