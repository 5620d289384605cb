import CodexRelay.Chain.Controller.ForkSwitch

/-!
Contract: `log_irreversible`.

Owns:
- `Quiet`, an environment without failures of signal handlers, memory and disk;
- `Logged`, that the block log ends where the fork database begins;
- that `log_irreversible` returns, and that it keeps the invariants, when the fork
  database and the controller have the same head.

Does not own: that the two heads are the same when it is called.
-/

namespace CodexRelay.Chain

open Library List ForkDatabase BlockHeader UndoStack

variable {id rootId : BlockId} {blocks : List BlockState}

namespace ControllerM

variable {χ : Type} {env : Environment χ} {s : ControllerState χ} {block : BlockState}

/-- No signal handler, no allocation, no commit and no disk fails, and what the start or the
execution of a block throws is an `fc::exception`. -/
structure Quiet (env : Environment χ) : Prop where
  signals : ∀ signal block, passedOn env signal block = none
  create : ∀ block, env.create block = none
  commit : ∀ block, env.commit block = none
  append : ∀ block, env.append block = none
  start : ∀ status state block thrown, env.start status state block = some thrown →
    thrown.code.isFc = true
  exec : ∀ status state block thrown, env.exec status state block = .error thrown →
    thrown.code.isFc = true

/-- The log holds consecutive blocks, each linked to the one before, up to the root of
the fork database. -/
structure Logged (s : ControllerState χ) : Prop where
  numbered : ∀ index block, s.blog.blocks[index]? = some block →
    block.blockNum = s.blog.firstBlockNum + index
  linked : s.blog.blocks.IsChain fun older newer => newer.previous = older.id
  upToRoot : (∃ logHead, s.blog.head = some logHead ∧ logHead.id = s.forkDb.root.id) ∨
    s.blog.blocks = [] ∧ s.blog.firstBlockNum = s.forkDb.root.blockNum + 1

namespace Logged

section

variable (logged : Logged s)

include logged

theorem length_eq : s.blog.blocks.length + s.blog.firstBlockNum = s.forkDb.root.blockNum + 1 := by
  rcases logged.upToRoot with ⟨logHead, isHead, same⟩ | ⟨empty, first⟩
  · have last : s.blog.blocks[s.blog.blocks.length - 1]? = some logHead := by
      rw [← getLast?_eq_getElem?]
      exact isHead
    have num := logged.numbered _ _ last
    have inside := (List.getElem?_eq_some_iff.mp last).1
    rw [← logHead.idNum, same, s.forkDb.root.idNum] at num
    omega
  · rw [empty, first]
    simp

theorem libNum_eq : s.blog.libNum = s.forkDb.root.blockNum := by
  unfold BlockLog.libNum
  rcases logged.upToRoot with ⟨logHead, isHead, same⟩ | ⟨empty, first⟩
  · rw [isHead]
    change logHead.blockNum = _
    rw [← logHead.idNum, same, s.forkDb.root.idNum]
  · have noHead : s.blog.head = none := by
      unfold BlockLog.head
      rw [empty]
      rfl
    rw [noHead, first]
    rfl

/-- Blocks (newest first) down to the root go on with the numbers of the log. -/
theorem numbered_append (path : blockLinkage.Path s.forkDb.getBlock id blocks s.forkDb.root.id)
    {index : Nat} (position : (s.blog.blocks ++ blocks.reverse)[index]? = some block) :
    block.blockNum = s.blog.firstBlockNum + index := by
  rw [getElem?_append] at position
  split at position
  case isTrue => exact logged.numbered index block position
  case isFalse outside =>
    have inside := (List.getElem?_eq_some_iff.mp position).1
    rw [length_reverse] at inside
    rw [getElem?_reverse inside] at position
    have level := path.generation_getElem? s.forkDb.keyed position
    change numFromId block.id + _ = numFromId id at level
    have total := path.generation_eq s.forkDb.keyed
    change numFromId id = numFromId s.forkDb.root.id + _ at total
    rw [s.forkDb.root.idNum] at total
    rw [block.idNum] at level
    have length := logged.length_eq
    omega

theorem linked_append (path : blockLinkage.Path s.forkDb.getBlock id blocks s.forkDb.root.id) :
    (s.blog.blocks ++ blocks.reverse).IsChain fun older newer => newer.previous = older.id := by
  refine isChain_append.mpr ⟨logged.linked, ?_, fun logHead isHead first isFirst => ?_⟩
  · exact isChain_reverse.mpr (path.isChain s.forkDb.keyed)
  · rw [head?_reverse] at isFirst
    have nonempty : blocks ≠ [] := by
      rintro rfl
      cases isFirst
    have parent := path.getLast?_parent nonempty
    rw [getLast?_map, isFirst] at parent
    have onRoot : first.previous = s.forkDb.root.id := Option.some.inj parent
    rcases logged.upToRoot with ⟨logHead', isHead', same⟩ | ⟨empty, -⟩
    · have isSame : logHead' = logHead := Option.some.inj (isHead'.symm.trans isHead)
      rw [onRoot, ← same, isSame]
    · rw [empty] at isHead
      cases isHead

end

end Logged

/-! ### The loop -/

def afterLogging (s : ControllerState χ) : List BlockState → ControllerState χ
  | [] => s
  | newest :: older =>
    { s with
      db := s.db.commit newest.blockNum
      blog := { s.blog with blocks := s.blog.blocks ++ (newest :: older).reverse }
      reversibleBlocks := s.reversibleBlocks.filter (newest.blockNum < ·.blockNum) }

theorem advancingRoot_of_ok {body : ControllerM χ Unit} {s' : ControllerState χ}
    (ran : body s = .ok () s') : advancingRoot rootId body s = .ok () s' := by
  unfold advancingRoot
  rw [bind_of_ok (attempt_of_ok ran)]
  rfl

theorem applyIrreversible_of_mode (mode : s.readMode ≠ .irreversible) :
    applyIrreversible env block s = .ok () s := by
  unfold applyIrreversible
  rw [get_bind, if_neg mode]
  rfl

theorem appendLog_of_quiet (quiet : Quiet env)
    (next : s.blog.blocks.length + s.blog.firstBlockNum = block.blockNum) :
    appendLog env block s =
      .ok () { s with blog := { s.blog with blocks := s.blog.blocks ++ [block] } } := by
  refine captureAndRethrow_of_ok ?_
  rw [get_bind, bind_of_ok (assert_of_true next), quiet.append block]
  rfl

theorem logBlocks_cons (quiet : Quiet env) (mode : s.readMode ≠ .irreversible)
    {rest : List BlockState} (next : s.blog.blocks.length + s.blog.firstBlockNum = block.blockNum) :
    logBlocks env rootId (block :: rest) s =
      logBlocks env block.id rest (afterLogging s [block]) := by
  have first : makeIrreversible env block s =
      .ok () { s with db := s.db.commit block.blockNum } := by
    unfold makeIrreversible
    rw [bind_of_ok (applyIrreversible_of_mode mode), bind_of_ok (emit_of_none (quiet.signals _ _))]
    unfold commitDb
    rw [quiet.commit block]
    rfl
  have appended := appendLog_of_quiet (s := { s with db := s.db.commit block.blockNum }) quiet next
  rw [logBlocks.eq_2, bind_of_ok (advancingRoot_of_ok first),
    bind_of_ok (advancingRoot_of_ok appended), modify_bind]
  rfl

@[simp] theorem afterLogging_readMode (s : ControllerState χ) (blocks : List BlockState) :
    (afterLogging s blocks).readMode = s.readMode := by
  cases blocks <;> rfl

theorem afterLogging_blog (s : ControllerState χ) (blocks : List BlockState) :
    (afterLogging s blocks).blog = { s.blog with blocks := s.blog.blocks ++ blocks.reverse } := by
  cases blocks with
  | nil =>
    change s.blog = { s.blog with blocks := s.blog.blocks ++ [] }
    rw [append_nil]
  | cons => rfl

theorem afterLogging_cons {older : List BlockState}
    (below : ∀ earlier ∈ older, earlier.blockNum ≤ block.blockNum) :
    afterLogging (afterLogging s older) [block] = afterLogging s (block :: older) := by
  cases older with
  | nil => rfl
  | cons newest older =>
    have le := below newest mem_cons_self
    have stored : (s.reversibleBlocks.filter (newest.blockNum < ·.blockNum)).filter
        (block.blockNum < ·.blockNum) = s.reversibleBlocks.filter (block.blockNum < ·.blockNum) := by
      rw [filter_filter]
      congr 1
      funext stored
      rw [← Bool.decide_and, decide_eq_decide]
      omega
    have appended : (s.blog.blocks ++ (newest :: older).reverse) ++ [block].reverse =
        s.blog.blocks ++ (block :: newest :: older).reverse := by
      rw [append_assoc, reverse_singleton, ← reverse_cons]
    simp only [afterLogging, stored, appended, commit_commit _ le]

theorem logBlocks_of_path (quiet : Quiet env) (mode : s.readMode ≠ .irreversible)
    {find : BlockId → Option BlockState} (keyed : blockLinkage.Keyed find) {bottom : BlockState}
    (rest : List BlockState)
    (next : s.blog.blocks.length + s.blog.firstBlockNum = bottom.blockNum + 1)
    (path : blockLinkage.Path find id blocks bottom.id) :
    logBlocks env rootId (blocks.reverse ++ rest) s =
      logBlocks env ((blocks.head?.map (·.id)).getD rootId) rest (afterLogging s blocks) := by
  induction blocks generalizing id rest with
  | nil => rfl
  | cons block older ih =>
    cases path with
    | cons found path =>
      have counted := path.generation_eq keyed
      change numFromId block.previous = numFromId bottom.id + _ at counted
      rw [bottom.idNum] at counted
      have own := block.previousNum
      have position : (afterLogging s older).blog.blocks.length +
          (afterLogging s older).blog.firstBlockNum = block.blockNum := by
        rw [afterLogging_blog]
        simp only [length_append, length_reverse]
        omega
      have below : ∀ earlier ∈ older, earlier.blockNum ≤ block.blockNum := by
        intro earlier member
        have le := path.generation_le keyed member
        change numFromId earlier.id ≤ numFromId block.previous at le
        rw [earlier.idNum] at le
        omega
      rw [reverse_cons, append_assoc, ih _ path,
        singleton_append, logBlocks_cons quiet (by simpa using mode) position,
        afterLogging_cons below]
      rfl

/-! ### The root advances -/

/-- The branch of the head is cut at its LIB, the block `newRoot`: `newer` stay reversible, and
`older`, of which `newRoot` is the newest, are logged. -/
structure Cut (s : ControllerState χ) (newer : List BlockState) (newRoot : BlockState)
    (older : List BlockState) : Prop where
  newerPath : blockLinkage.Path s.forkDb.getBlock s.head.id newer newRoot.id
  olderPath : blockLinkage.Path s.forkDb.getBlock newRoot.id (newRoot :: older) s.forkDb.root.id
  isLib : newRoot.blockNum = s.head.dposIrreversibleBlocknum

namespace Cut

variable {newer older : List BlockState} {newRoot : BlockState} {forkDb : ForkDatabase}

theorem found (cut : Cut s newer newRoot older) : s.forkDb.getBlock newRoot.id = some newRoot := by
  cases cut.olderPath with
  | cons found _ => exact found

def advanced (s : ControllerState χ) (newRoot : BlockState) (older : List BlockState)
    (forkDb : ForkDatabase) : ControllerState χ :=
  { afterLogging s (newRoot :: older) with forkDb }

section

variable (cut : Cut s newer newRoot older)

include cut

theorem stored (tree : s.forkDb.Tree) (isStored : s.reversibleBlocks = s.forkDb.branch s.head.id) :
    s.reversibleBlocks.filter (newRoot.blockNum < ·.blockNum) = newer := by
  have above : newer.filter (newRoot.blockNum < ·.blockNum) = newer := by
    refine filter_eq_self.mpr fun block member => decide_eq_true ?_
    have lt := cut.newerPath.lt_generation s.forkDb.keyed member
    change numFromId newRoot.id < numFromId block.id at lt
    rwa [newRoot.idNum, block.idNum] at lt
  have below : (newRoot :: older).filter (newRoot.blockNum < ·.blockNum) = [] := by
    refine filter_eq_nil_iff.mpr fun block member => ?_
    have le := cut.olderPath.generation_le s.forkDb.keyed member
    change numFromId block.id ≤ numFromId newRoot.id at le
    rw [newRoot.idNum, block.idNum] at le
    simpa using le
  rw [isStored, tree.branch_of_path (.inr cut.found) cut.newerPath,
    tree.branch_eq_of_path cut.olderPath, filter_append, above, below, append_nil]

/-- The chain state of the new root is at the bottom of the undo stack. -/
theorem executed {bottom : χ} {states : List χ} (executed : Executed env s bottom states)
    (ranked : s.forkDb.Ranked) (isAdvanced : AdvancedRoot s.forkDb forkDb newRoot) :
    ∃ bottom' states', Executed env (advanced s newRoot older forkDb) bottom' states' := by
  have tree := ranked.tree
  have applies := executed.head
  rw [tree.branch_of_path (.inr cut.found) cut.newerPath,
    tree.branch_eq_of_path cut.olderPath] at applies
  obtain ⟨newStates, oldStates, rfl, below, above⟩ := applies.split
  refine ⟨oldStates.headD bottom, newStates, ?_, ?_, ?_⟩
  · change Applies env _ _ (forkDb.branch s.head.id) newStates
    rw [isAdvanced.branch_eq cut.newerPath]
    exact above
  · change s.db.commit newRoot.blockNum =
      (⟨_, [], forkDb.root.blockNum⟩ : UndoStack χ).pushes newStates
    have level := path_num_eq cut.olderPath
    have revision : ((⟨bottom, [], s.forkDb.root.blockNum⟩ : UndoStack χ).pushes oldStates).revision =
        newRoot.blockNum := by
      rw [pushes_revision, below.length_eq]
      exact level.symm
    have committed := commit_pushes
      ((⟨bottom, [], s.forkDb.root.blockNum⟩ : UndoStack χ).pushes oldStates) newStates
    rw [revision, pushes_state, ← pushes_append, ← executed.db] at committed
    rw [committed, isAdvanced.root]
  · intro entry member validated
    obtain ⟨before, other, reach⟩ := (isAdvanced.entries entry).mp member
    obtain ⟨nodes, path⟩ := path_of_reach reach
    obtain ⟨others, othersApply⟩ := executed.others entry before validated
    rw [tree.branch_of_path (.inr cut.found) path,
      tree.branch_eq_of_path cut.olderPath] at othersApply
    obtain ⟨upper, lower, -, lowerApplies, upperApplies⟩ := othersApply.split
    obtain rfl := lowerApplies.unique below
    refine ⟨upper, ?_⟩
    change Applies env _ _ (forkDb.branch entry.block.id) upper
    rw [isAdvanced.branch_eq path]
    exact upperApplies

theorem synced (synced : Synced env s) (isAdvanced : AdvancedRoot s.forkDb forkDb newRoot)
    (headBelow : Reach s.forkDb.index newRoot.id s.forkDb.head.id) :
    Synced env (advanced s newRoot older forkDb) where
  idle := synced.idle
  mode := synced.mode
  ranked := isAdvanced.ranked synced.ranked cut.found headBelow
  headHas := isAdvanced.has_of_reach synced.ranked.tree cut.found synced.headHas
    (reach_of_path cut.newerPath)
  headValid := isAdvanced.isValid_of_reach synced.ranked.tree cut.found
    (reach_of_path cut.newerPath) synced.headValid
  executed := by
    obtain ⟨bottom, states, executed⟩ := synced.executed
    exact cut.executed executed synced.ranked isAdvanced
  stored := by
    change s.reversibleBlocks.filter (newRoot.blockNum < ·.blockNum) = forkDb.branch s.head.id
    rw [isAdvanced.branch_eq cut.newerPath]
    exact cut.stored synced.ranked.tree synced.stored

theorem isLogged (logged : Logged s) (isAdvanced : AdvancedRoot s.forkDb forkDb newRoot) :
    Logged (advanced s newRoot older forkDb) where
  numbered _ _ position := logged.numbered_append cut.olderPath position
  linked := logged.linked_append cut.olderPath
  upToRoot := by
    refine .inl ⟨newRoot, ?_, ?_⟩
    · change (s.blog.blocks ++ (newRoot :: older).reverse).getLast? = some newRoot
      rw [reverse_cons, ← append_assoc, getLast?_concat]
    · change newRoot.id = forkDb.root.id
      rw [isAdvanced.root]

end

end Cut

theorem exists_cut (tree : s.forkDb.Tree) (headHas : s.forkDb.Has s.head)
    (above : s.forkDb.root.blockNum < s.head.dposIrreversibleBlocknum) :
    ∃ newer newRoot older, Cut s newer newRoot older ∧
      s.forkDb.fetchBranch s.head.id s.head.dposIrreversibleBlocknum = newRoot :: older := by
  have path := tree.branch_path headHas
  obtain ⟨newRoot, member, num⟩ : ∃ newRoot ∈ s.forkDb.branch s.head.id,
      newRoot.blockNum = s.head.dposIrreversibleBlocknum := by
    have below := s.head.libBelow
    obtain ⟨newRoot, member, same⟩ := path.exists_generation s.forkDb.keyed
      (show numFromId s.forkDb.root.id < s.head.dposIrreversibleBlocknum by
        rw [s.forkDb.root.idNum]; exact above)
      (show s.head.dposIrreversibleBlocknum ≤ numFromId s.head.id by
        rw [s.head.idNum]; exact below.le)
    exact ⟨newRoot, member, by rw [← newRoot.idNum]; exact same⟩
  obtain ⟨newer, older, split⟩ := append_of_mem member
  rw [split] at path
  obtain ⟨middle, newerPath, olderPath⟩ := path.split
  have start := path_headD olderPath
  change newRoot.id = middle at start
  rw [← start] at newerPath olderPath
  refine ⟨newer, newRoot, older, ⟨newerPath, olderPath, num⟩, ?_⟩
  have dropped : newer.filter (·.blockNum ≤ s.head.dposIrreversibleBlocknum) = [] := by
    refine filter_eq_nil_iff.mpr fun block blockMem => ?_
    have lt := newerPath.lt_generation s.forkDb.keyed blockMem
    change numFromId newRoot.id < numFromId block.id at lt
    rw [newRoot.idNum, block.idNum] at lt
    simp only [decide_eq_true_eq]
    omega
  have kept : (newRoot :: older).filter (·.blockNum ≤ s.head.dposIrreversibleBlocknum) =
      newRoot :: older := by
    refine filter_eq_self.mpr fun block blockMem => decide_eq_true ?_
    have le := olderPath.generation_le s.forkDb.keyed blockMem
    change numFromId block.id ≤ numFromId newRoot.id at le
    rw [newRoot.idNum, block.idNum] at le
    omega
  unfold fetchBranch
  rw [split, filter_append, dropped, kept, nil_append]

/-- The assertions about root and log, which `log_irreversible` makes first. -/
def RootMatchesLog (s : ControllerState χ) : Prop :=
  match s.blog.head with
  | some logHead => s.forkDb.root.id = logHead.id
  | none => s.forkDb.root.blockNum = s.blog.libNum

theorem Logged.rootMatchesLog (logged : Logged s) : RootMatchesLog s := by
  unfold RootMatchesLog
  rcases logged.upToRoot with ⟨logHead, isHead, same⟩ | ⟨empty, -⟩
  · rw [isHead]
    exact same.symm
  · have noHead : s.blog.head = none := by
      unfold BlockLog.head
      rw [empty]
      rfl
    rw [noHead]
    exact logged.libNum_eq.symm

/-- The state after `log_irreversible`. -/
def Settled (s s' : ControllerState χ) : Prop :=
  s' = s ∨ ∃ newer newRoot older forkDb, Cut s newer newRoot older ∧
    AdvancedRoot s.forkDb forkDb newRoot ∧ s' = Cut.advanced s newRoot older forkDb

/-- `log_irreversible` returns. Either there is nothing to do, or the blocks of the head's
branch up to its LIB go to the log. -/
theorem logIrreversible_spec (quiet : Quiet env) (mode : s.readMode ≠ .irreversible)
    (ranked : s.forkDb.Ranked) (logged : Logged s) (sameHead : s.forkDb.head = s.head) :
    ∃ s', Settled s s' ∧ logIrreversible env s = .ok () s' := by
  have headHas := ranked.headHas
  have headValid := ranked.headValid
  rw [sameHead] at headHas headValid
  have matching := logged.rootMatchesLog
  unfold RootMatchesLog at matching
  have asserted : logIrreversible env s =
      (if s.blog.libNum < s.head.dposIrreversibleBlocknum then do
        let rootId ← logBlocks env s.forkDb.root.id
          (s.forkDb.fetchBranch s.head.id s.head.dposIrreversibleBlocknum).reverse
        if rootId ≠ (← get).forkDb.root.id then onForkDb (advanceRoot rootId)
      else pure () : ControllerM χ Unit) s := by
    unfold logIrreversible
    rw [get_bind]
    cases isHead : s.blog.head with
    | some logHead =>
      rw [isHead] at matching
      dsimp only
      rw [bind_of_ok (assert_of_true matching), if_neg mode, sameHead]
    | none =>
      rw [isHead] at matching
      dsimp only
      rw [bind_of_ok (assert_of_true matching), if_neg mode, sameHead]
  rw [asserted, logged.libNum_eq]
  split_ifs with above
  case neg => exact ⟨s, .inl rfl, rfl⟩
  case pos =>
    obtain ⟨newer, newRoot, older, cut, fetched⟩ := exists_cut ranked.tree headHas above
    have reach := reach_of_path cut.newerPath
    obtain ⟨forkDb, ran, isAdvanced⟩ := ranked.tree.advanceRoot_spec cut.found
      (ranked.valid_of_path cut.newerPath headValid).1 (by rwa [sameHead])
    have looped : logBlocks env s.forkDb.root.id (newRoot :: older).reverse s =
        .ok newRoot.id (afterLogging s (newRoot :: older)) := by
      have loop : logBlocks env s.forkDb.root.id ((newRoot :: older).reverse ++ []) s =
          .ok newRoot.id (afterLogging s (newRoot :: older)) :=
        logBlocks_of_path quiet mode s.forkDb.keyed [] logged.length_eq cut.olderPath
      rwa [append_nil] at loop
    have other : newRoot.id ≠ s.forkDb.root.id := by
      intro same
      have found := cut.found
      rw [same, ranked.tree.getBlock_root] at found
      cases found
    refine ⟨_, .inr ⟨newer, newRoot, older, forkDb, cut, isAdvanced, rfl⟩, ?_⟩
    rw [fetched, bind_of_ok looped, get_bind]
    refine (congrFun (if_pos other) _).trans ?_
    exact onForkDb_of_ok (s := afterLogging s (newRoot :: older)) ran

namespace Settled

variable {s' : ControllerState χ}

section

variable (settled : Settled s s')

include settled

theorem synced (synced : Synced env s) (sameHead : s.forkDb.head = s.head) : Synced env s' := by
  rcases settled with rfl | ⟨newer, newRoot, older, forkDb, cut, isAdvanced, rfl⟩
  · exact synced
  · refine cut.synced synced isAdvanced ?_
    rw [sameHead]
    exact reach_of_path cut.newerPath

theorem logged (logged : Logged s) : Logged s' := by
  rcases settled with rfl | ⟨newer, newRoot, older, forkDb, cut, isAdvanced, rfl⟩
  · exact logged
  · exact cut.isLogged logged isAdvanced

theorem head : s'.head = s.head ∧ s'.forkDb.head = s.forkDb.head := by
  rcases settled with rfl | ⟨newer, newRoot, older, forkDb, cut, isAdvanced, rfl⟩
  · exact ⟨rfl, rfl⟩
  · exact ⟨rfl, isAdvanced.head⟩

theorem entries : ∀ entry ∈ s'.forkDb.index.entries, entry ∈ s.forkDb.index.entries := by
  rcases settled with rfl | ⟨newer, newRoot, older, forkDb, cut, isAdvanced, rfl⟩
  · exact fun _ member => member
  · exact fun entry member => ((isAdvanced.entries entry).mp member).1

theorem grows : s'.blog.firstBlockNum = s.blog.firstBlockNum ∧
    s.blog.blocks <+: s'.blog.blocks := by
  rcases settled with rfl | ⟨newer, newRoot, older, forkDb, cut, isAdvanced, rfl⟩
  · exact ⟨rfl, prefix_rfl⟩
  · exact ⟨rfl, prefix_append _ _⟩

theorem push (session : χ) (onPar : s.db.revision + 1 = s.head.blockNum) :
    Settled { s with db := s.db.push session, pending := none }
      { s' with db := s'.db.push session, pending := none } := by
  rcases settled with rfl | ⟨newer, newRoot, older, forkDb, cut, isAdvanced, rfl⟩
  · exact .inl rfl
  · refine .inr ⟨newer, newRoot, older, forkDb, ⟨cut.newerPath, cut.olderPath, cut.isLib⟩,
      isAdvanced, ?_⟩
    have below := s.head.libBelow
    have isLib := cut.isLib
    have pushed := commit_push s.db session (show newRoot.blockNum ≤ s.db.revision by omega)
    unfold Cut.advanced afterLogging
    dsimp only
    rw [pushed]

end

end Settled

end ControllerM

end CodexRelay.Chain
