import CodexRelay.Chain.Controller.Calls
import CodexRelay.Library.Run

/-!
Contract: the stores and the heads over runs of calls.

Owns:
- `StoresAgree`: the log ends at the root of the fork database, and the reversible
  blocks are the branch of the head above the root;
- that it holds after every call of a run, that the log only grows, and that a push
  which throws was rejected because of its block;
- that the chain state is what executing the reversible blocks leads to;
- `HeadsAgree`: both heads are the same block, and no block that is not validated is
  preferred to it. It holds along every run of calls which are made while the head comes
  first in the index of the fork database;
- a run in which `add` moves the head of the fork database alone.

Does not own: runs in which a signal handler, an allocation or the disk fails, and the
read mode IRREVERSIBLE.
-/

namespace CodexRelay.Chain

open Library ForkDatabase

namespace ControllerM

variable {χ : Type} {env : Environment χ} {s s' start last : ControllerState χ}
  {visited : List (ControllerState χ)}

structure StoresAgree (s : ControllerState χ) : Prop where
  log : Logged s
  reversible : blockLinkage.Path s.forkDb.getBlock s.head.id s.reversibleBlocks s.forkDb.root.id
  rootMatchesLog : RootMatchesLog s

theorem Synced.storesAgree (synced : Synced env s) (logged : Logged s) : StoresAgree s where
  log := logged
  reversible := by
    rw [synced.stored]
    exact synced.ranked.tree.branch_path synced.headHas
  rootMatchesLog := logged.rootMatchesLog

/-- The log of the later state has the blocks of the earlier one, and maybe more. -/
def LogGrows (later earlier : ControllerState χ) : Prop :=
  later.blog.firstBlockNum = earlier.blog.firstBlockNum ∧ earlier.blog.blocks <+: later.blog.blocks

section

variable (quiet : Quiet env) (replays : Replays env) (synced : Synced env start)
  (logged : Logged start) (run : Run (Call env) start visited last)

include quiet replays synced logged run

theorem invariants_of_run : Synced env last ∧ Logged last := by
  induction run with
  | refl => exact ⟨synced, logged⟩
  | snoc _ call ih =>
    obtain ⟨lastSynced, lastLogged⟩ := ih
    have change := call.change quiet replays lastSynced lastLogged
    exact ⟨change.synced quiet lastSynced, change.logged lastLogged⟩

theorem logGrows_of_run : (visited ++ [start]).Pairwise LogGrows := by
  induction run with
  | refl => exact List.pairwise_singleton _ _
  | @snoc visited last next before call ih =>
    obtain ⟨lastSynced, lastLogged⟩ := invariants_of_run quiet replays synced logged before
    have grows : LogGrows next last := (call.change quiet replays lastSynced lastLogged).grows
    obtain ⟨rest, split⟩ := before.append_start
    rw [List.cons_append, List.pairwise_cons]
    refine ⟨fun earlier member => ?_, ih⟩
    -- The last state has the log of every state before it.
    rw [split] at member ih
    rcases List.mem_cons.mp member with rfl | older
    · exact grows
    · obtain ⟨log, root⟩ := (List.pairwise_cons.mp ih).1 earlier older
      exact ⟨grows.1.trans log, root.trans grows.2⟩

end

/-- **The stores agree along every run.** The assertions at the start of
`log_irreversible` hold as well, so that only an invalid block makes a push throw. -/
theorem storesAgree_of_run (quiet : Quiet env) (replays : Replays env) (synced : Synced env start)
    (logged : Logged start) (run : Run (Call env) start visited last) :
    (∀ s ∈ visited ++ [start], StoresAgree s) ∧ (visited ++ [start]).Pairwise LogGrows ∧
      ∀ s ∈ visited ++ [start], ∀ future thrown s', pushBlock env future s = .error thrown s' →
        Defined env s future → Invalid env s future thrown := by
  have invariants : ∀ s ∈ visited ++ [start], Synced env s ∧ Logged s := by
    intro s member
    obtain ⟨earlier, before⟩ := run.of_mem member
    exact invariants_of_run quiet replays synced logged before
  refine ⟨?_, logGrows_of_run quiet replays synced logged run, ?_⟩
  · intro s member
    obtain ⟨isSynced, isLogged⟩ := invariants s member
    exact isSynced.storesAgree isLogged
  · intro s member future thrown s' ran isDefined
    obtain ⟨isSynced, isLogged⟩ := invariants s member
    have outcome := pushBlock_outcome quiet replays isSynced isLogged future
    rw [ran] at outcome
    cases outcome with
    | rejected invalid => exact invalid
    | fails _ invalid => exact invalid
    | faults isFuture added indirect fetched throws =>
      exact absurd (isDefined _ _ _ isFuture added indirect fetched) throws

/-- **The chain state is that of the head.** Along every run the undo stack holds the states to which
executing the reversible blocks in order leads from the state of the root, one for each block. -/
theorem chainState_of_run (quiet : Quiet env) (replays : Replays env) (synced : Synced env start)
    (logged : Logged start) (run : Run (Call env) start visited last) :
    ∀ s ∈ visited ++ [start], ∃ bottom states,
      Applies env (fun _ => .complete) bottom s.reversibleBlocks states ∧
        s.db = (⟨bottom, [], s.forkDb.root.blockNum⟩ : UndoStack χ).pushes states := by
  intro s member
  obtain ⟨earlier, before⟩ := run.of_mem member
  obtain ⟨isSynced, -⟩ := invariants_of_run quiet replays synced logged before
  obtain ⟨bottom, states, executed⟩ := isSynced.executed
  rw [isSynced.stored]
  exact ⟨bottom, states, executed.head, executed.db⟩

/-! ### A run -/

theorem quiet_counting (bad : BlockId) : Quiet (counting bad) where
  signals _ _ := rfl
  create _ := rfl
  commit _ := rfl
  append _ := rfl
  start _ _ _ _ throws := nomatch throws
  exec := by
    intro status state block thrown threw
    unfold counting at threw
    dsimp only at threw
    split_ifs at threw
    obtain rfl := Except.error.inj threw
    rfl

def onlyRoot : ControllerState Nat :=
  { unexecuted with forkDb := { index := ⟨[], by decide⟩, root := rootBlock, head := rootBlock } }

theorem synced_onlyRoot (bad : BlockId) : Synced (counting bad) onlyRoot :=
  Synced.of_root ⟨by decide, by decide⟩ rfl (by decide) rfl rfl (by decide) rfl rfl

theorem logged_onlyRoot : Logged onlyRoot where
  numbered := by
    intro index block position
    cases index with
    | zero =>
      obtain rfl := Option.some.inj position
      rfl
    | succ => cases position
  linked := .singleton _
  upToRoot := .inl ⟨rootBlock, rfl, rfl⟩

def pushedA : ControllerState Nat :=
  { onlyRoot with
    forkDb := { index := ⟨[⟨blockA, true⟩], by decide⟩, root := rootBlock, head := blockA }
    head := blockA
    db := ⟨1, [0], 2⟩
    reversibleBlocks := [blockA] }

/-- `blockB` was pushed too, which is not executed. -/
def pushedAB : ControllerState Nat :=
  { pushedA with
    forkDb := {
      index := ⟨[⟨blockB, false⟩, ⟨blockA, true⟩], by decide⟩
      root := rootBlock
      head := blockA } }

/-- `blockC` was pushed: `blockA` is popped, and the branch of `blockC` is applied. -/
def switchedC : ControllerState Nat :=
  { onlyRoot with
    forkDb := {
      index := ⟨[⟨blockC, true⟩, ⟨blockB, true⟩, ⟨blockA, true⟩], by decide⟩
      root := rootBlock
      head := blockC }
    head := blockC
    db := ⟨2, [1, 0], 3⟩
    reversibleBlocks := [blockC, blockB] }

/-- A block that makes `blockB` irreversible. -/
def blockG : BlockState := ⟨sampleId 4 0, sampleId 3 0, 4, 2, by decide, by decide, by decide⟩

def loggedB : ControllerState Nat :=
  { onlyRoot with
    forkDb := {
      index := ⟨[⟨blockG, true⟩, ⟨blockC, true⟩], by decide⟩
      root := blockB
      head := blockG }
    head := blockG
    db := ⟨3, [2, 1], 4⟩
    reversibleBlocks := [blockG, blockC]
    blog := ⟨1, [rootBlock, blockB]⟩ }

theorem calls_to_loggedB :
    Call (counting 0) onlyRoot pushedA ∧ Call (counting 0) pushedA pushedAB ∧
      Call (counting 0) pushedAB switchedC ∧ Call (counting 0) switchedC loggedB :=
  ⟨@Call.pushed _ _ _ (.ok blockA) _ (by decide +kernel),
    @Call.pushed _ _ _ (.ok blockB) _ (by decide +kernel),
    @Call.pushed _ _ _ (.ok blockC) _ (by decide +kernel),
    @Call.pushed _ _ _ (.ok blockG) _ (by decide +kernel)⟩

theorem run_to_loggedB :
    Run (Call (counting 0)) onlyRoot [loggedB, switchedC, pushedAB, pushedA] loggedB :=
  let ⟨first, second, third, fourth⟩ := calls_to_loggedB
  .snoc (.snoc (.snoc (.snoc .refl first) second) third) fourth

/-- After a switch of forks and a block that became irreversible, the stores agree. -/
theorem storesAgree_of_run_loggedB :
    StoresAgree switchedC ∧ StoresAgree loggedB ∧ LogGrows loggedB switchedC := by
  obtain ⟨agree, grows, -⟩ := storesAgree_of_run (quiet_counting _) (replays_counting _)
    (synced_onlyRoot _) logged_onlyRoot run_to_loggedB
  exact ⟨agree _ (by simp), agree _ (by simp), (List.pairwise_cons.mp grows).1 _ (by simp)⟩

/-- Undoing the session of `blockG` gives the state of `blockC`. -/
theorem chainState_of_run_loggedB : ∃ bottom states,
    Applies (counting 0) (fun _ => .complete) bottom [blockG, blockC] states ∧
      loggedB.db = (⟨bottom, [], 2⟩ : UndoStack Nat).pushes states :=
  chainState_of_run (quiet_counting _) (replays_counting _) (synced_onlyRoot _) logged_onlyRoot
    run_to_loggedB loggedB List.mem_cons_self

/-! ### A branch above the head -/

/-- A block with LIB 1. -/
def blockL : BlockState :=
  ⟨sampleId 2 3, sampleId 1 0, 2, 1, by decide, blockA.previousNum, Nat.one_lt_two⟩

/-- A block on `blockL` with a lower LIB, which is not preferred to it. -/
def blockM : BlockState := ⟨sampleId 3 2, sampleId 2 3, 3, 0, by decide, by decide, blockC.libBelow⟩

def blockN : BlockState := ⟨sampleId 4 3, sampleId 3 2, 4, 2, by decide, by decide, blockG.libBelow⟩

def pushedL : ControllerState Nat :=
  { onlyRoot with
    forkDb := { index := ⟨[⟨blockL, true⟩], by decide⟩, root := rootBlock, head := blockL }
    head := blockL
    db := ⟨1, [0], 2⟩
    reversibleBlocks := [blockL] }

def pushedLM : ControllerState Nat :=
  { pushedL with
    forkDb := {
      index := ⟨[⟨blockM, false⟩, ⟨blockL, true⟩], by decide⟩
      root := rootBlock
      head := blockL } }

/-- `blockM` waits above the head. When the invalid `blockN` is pushed on it, the controller switches
to a branch that begins at the head, and the failed switch reads the last block of an empty branch. -/
theorem push_above_head_not_defined :
    Run (Call (counting blockN.id)) onlyRoot [pushedLM, pushedL] pushedLM ∧
      pushBlock (counting blockN.id) (.ok blockN) pushedLM =
        .error ⟨.fault, "back() of an empty branch"⟩ { pushedL with
          forkDb := {
            index := ⟨[⟨blockM, true⟩, ⟨blockL, true⟩], by decide⟩
            root := rootBlock
            head := blockL } } ∧
        ¬ Invalid (counting blockN.id) pushedLM (.ok blockN)
          ⟨.fault, "back() of an empty branch"⟩ := by
  refine ⟨.snoc (.snoc .refl (@Call.pushed _ _ _ (.ok blockL) _ (by decide +kernel)))
    (@Call.pushed _ _ _ (.ok blockM) _ (by decide +kernel)), by decide +kernel, ?_⟩
  rintro ⟨cause, isThrown, isError | ⟨block, isBlock, refused⟩ | ⟨_, _, _, _, threw, rfl⟩⟩
  · cases isError
  · cases isBlock
    have added : ∃ forkDb, ForkDatabase.add blockN false pushedLM.forkDb = .ok () forkDb := ⟨_, rfl⟩
    obtain ⟨forkDb, ran⟩ := added
    rw [ran] at refused
    cases refused
  · rcases threw with ⟨⟨⟩⟩ | threw
    have isFc := (quiet_counting _).exec _ _ _ _ threw
    exact ne_fault_of_isFc (isFc_rethrown (isFc_rethrown isFc)) (congrArg (·.code) isThrown).symm

variable {block newHead : BlockState} {forkDb : ForkDatabase}

/-- The heads are the same block, and no unvalidated block is preferred to it. -/
structure HeadsAgree (s : ControllerState χ) : Prop where
  same : s.head = s.forkDb.head
  best : ∀ entry ∈ s.forkDb.index.entries, entry.validated = false →
    ¬ firstPreferred entry.block s.forkDb.head

/-- A call that is made while the head comes first in the index. -/
def LedCall (env : Environment χ) (s s' : ControllerState χ) : Prop :=
  s.forkDb.HeadLeads ∧ Call env s s'

namespace HeadsAgree

theorem stays (agree : HeadsAgree s) (synced : Synced env s) (leads : s.forkDb.HeadLeads)
    (added : Added s.forkDb forkDb block) (same : forkDb.pendingHead.id = s.head.id) :
    HeadsAgree { s with forkDb } := by
  have kept : forkDb.head = s.forkDb.head := added.head_iff.mpr leads
  have ranked := added.ranked synced.ranked
  have isHead : forkDb.pendingHead = forkDb.head := by
    refine ranked.tree.has_unique ranked.has_pendingHead ranked.headHas ?_
    rw [same, kept, agree.same]
  refine ⟨agree.same.trans kept.symm, fun entry member unvalidated => ?_⟩
  have best := forkDb.pendingHead_cases.2 entry member unvalidated
  rwa [isHead] at best

/-- A switch makes the pending head the head, and no other block is preferred to that. -/
theorem switches {middle final : ControllerState χ} (synced : Synced env s)
    (added : Added s.forkDb forkDb block)
    (switched : Switched env { s with forkDb } forkDb.pendingHead middle)
    (settled : Settled middle final) : HeadsAgree final := by
  have ranked := added.ranked synced.ranked
  have forkHead : middle.forkDb.head = forkDb.pendingHead := switched.forkHead ranked
  obtain ⟨sameHead, sameForkHead⟩ := settled.head
  constructor
  case same => rw [sameHead, sameForkHead, switched.head, forkHead]
  case best =>
    intro entry member unvalidated
    obtain ⟨_, _, -, -, all⟩ := switched.branch
    rw [sameForkHead, forkHead]
    exact forkDb.pendingHead_cases.2 entry
      (all.unvalidated (settled.entries entry member) unvalidated) unvalidated

section

variable (agree : HeadsAgree s) (synced : Synced env s) (leads : s.forkDb.HeadLeads)

include agree synced leads

/-- Of the blocks that a failed switch leaves, none is preferred to the head: the only
one that can be is the block that was pushed, and it goes with the block that threw. -/
theorem fails {pruned : ForkDatabase} (added : Added s.forkDb forkDb block)
    (failed : SwitchFailed env { s with forkDb } forkDb.pendingHead pruned) :
    HeadsAgree { s with forkDb := pruned } := by
  have kept : forkDb.head = s.forkDb.head := added.head_iff.mpr leads
  have ranked := added.ranked synced.ranked
  obtain ⟨older, thrower, marked, top, path, topValid, reach, isPruned⟩ := failed.branch
  change blockLinkage.Path forkDb.getBlock thrower.id (thrower :: older) top at path
  -- Blocks that were there before are not preferred to the head.
  have oldBest : ∀ entry ∈ forkDb.index.entries, entry.block ≠ block →
      ¬ firstPreferred entry.block forkDb.head := by
    intro entry member other
    have before : entry ∈ s.forkDb.index.entries := by
      rcases (added.entries entry).mp member with rfl | before
      · exact absurd rfl other
      · exact before
    rw [kept]
    cases flag : entry.validated with
    | false => exact agree.best entry before flag
    | true => exact synced.ranked.best entry before flag
  -- The block that was pushed has no descendants, so it is not below the thrower.
  have notOlder : ∀ node ∈ older, node ≠ block := by
    rintro node member rfl
    have inside : s.forkDb.getBlock thrower.id ≠ none := by
      cases path with
      | cons found rest =>
        rcases added.getBlock_iff.mp found with ⟨same, -⟩ | before
        · exact absurd same (ne_of_path (s := { s with forkDb }) rest member)
        · rw [before]
          exact Option.some_ne_none _
    have found := added.found_of_path synced.ranked.tree path (.inr inside) node
      (List.mem_cons_of_mem _ member)
    rw [added.fresh] at found
    cases found
  have markedHead : marked.head = forkDb.head := by
    cases path with
    | cons found rest =>
      refine isPruned.all.head_of_not_preferred ranked rest topValid fun node member => ?_
      obtain ⟨-, entry, entryMem, rfl⟩ :=
        ForkDatabase.getBlock_eq_some.mp (rest.found forkDb.keyed node member)
      exact oldBest entry entryMem (notOlder _ member)
  have prunedHead : pruned.head = s.forkDb.head :=
    isPruned.removed.head.trans (markedHead.trans kept)
  refine ⟨agree.same.trans prunedHead.symm, fun entry member unvalidated preferred => ?_⟩
  obtain ⟨markedMem, notReach⟩ := (isPruned.removed.entries entry).mp member
  have inside : entry ∈ forkDb.index.entries := isPruned.all.unvalidated markedMem unvalidated
  change firstPreferred entry.block pruned.head at preferred
  rw [prunedHead, ← kept] at preferred
  have isBlock : entry.block = block := by
    by_contra other
    exact oldBest entry inside other preferred
  have isPending : forkDb.pendingHead = block := by
    rcases forkDb.pendingHead_cases.1 with isHead | ⟨pendingMem, pendingPreferred⟩
    · have best := forkDb.pendingHead_cases.2 entry inside unvalidated
      rw [isHead] at best
      exact absurd preferred best
    · by_contra other
      exact oldBest _ pendingMem other pendingPreferred
  refine notReach ((reach_congr isPruned.all.getBlock_eq).mpr ?_)
  rw [isBlock, ← isPending]
  exact reach

/-- A produced block became the head, so it is preferred to the head before. -/
theorem commits {session : χ} (committed : Committed s block session s') : HeadsAgree s' := by
  obtain @⟨grown, forkDb, added, marked, isHead, settled⟩ := committed
  have kept : grown.head = s.forkDb.head := added.head_iff.mpr leads
  have ranked := added.ranked synced.ranked
  have preferred : firstPreferred block s.forkDb.head := by
    by_contra notPreferred
    rw [← kept] at notPreferred
    have same := marked.head_of_not_preferred ranked added.getBlock_new notPreferred
    have valid := ranked.headValid
    have fresh : (⟨block, false⟩ : ForkEntry) ∈ grown.index.entries :=
      (added.entries _).mpr (.inl rfl)
    rw [← same, isHead, isValid_of_mem fresh] at valid
    cases valid
  obtain ⟨sameHead, sameForkHead⟩ := settled.head
  have headIs : s'.head = block := sameHead
  have forkHeadIs : s'.forkDb.head = block := sameForkHead.trans isHead
  constructor
  case same => rw [headIs, forkHeadIs]
  case best =>
    intro entry member unvalidated
    have inMarked : entry ∈ forkDb.index.entries := settled.entries entry member
    obtain ⟨before, beforeMem, same, flag⟩ := (marked.entries entry).mp inMarked
    rw [unvalidated] at flag
    obtain ⟨beforeFlag, other⟩ := Bool.or_eq_false_iff.mp flag.symm
    have old : before ∈ s.forkDb.index.entries := by
      rcases (added.entries before).mp beforeMem with rfl | old
      · rw [← same] at other
        exact absurd rfl (of_decide_eq_false other)
      · exact old
    rw [forkHeadIs, ← same]
    exact not_firstPreferred_trans (agree.best before old beforeFlag)
      (firstPreferred_asymm preferred)

theorem change (change : Change env s s') : HeadsAgree s' := by
  cases change with
  | none => exact agree
  | stays added same => exact agree.stays synced leads added same
  | switches added switched settled => exact switches synced added switched settled
  | fails added failed => exact agree.fails synced leads added failed
  | commits _ _ _ committed => exact agree.commits synced leads committed

end

end HeadsAgree

/-- **The heads agree along every run** of calls that are made while the head comes first
in the index of the fork database. -/
theorem headsAgree_of_run {visited : List (ControllerState χ)} (quiet : Quiet env)
    (replays : Replays env) (synced : Synced env start) (logged : Logged start)
    (agree : HeadsAgree start) (run : Run (LedCall env) start visited last) :
    ∀ s ∈ visited ++ [start], HeadsAgree s := by
  have atEnd : ∀ {visited : List (ControllerState χ)} {last : ControllerState χ},
      Run (LedCall env) start visited last → HeadsAgree last := by
    intro visited last run
    induction run with
    | refl => exact agree
    | snoc before call ih =>
      obtain ⟨leads, called⟩ := call
      have calls := before.mono fun _ _ (led : LedCall env _ _) => led.2
      obtain ⟨lastSynced, lastLogged⟩ := invariants_of_run quiet replays synced logged calls
      exact ih.change lastSynced leads (called.change quiet replays lastSynced lastLogged)
  intro s member
  obtain ⟨earlier, before⟩ := run.of_mem member
  exact atEnd before

/-! ### Two blocks with the same LIB and number -/

def blockD : BlockState :=
  ⟨sampleId 3 1, sampleId 2 1, 3, 0, by decide, by decide, blockC.libBelow⟩

def pushedB : ControllerState Nat :=
  { onlyRoot with
    forkDb := { index := ⟨[⟨blockB, true⟩], by decide⟩, root := rootBlock, head := blockB }
    head := blockB
    db := ⟨1, [0], 2⟩
    reversibleBlocks := [blockB] }

/-- The state after `blockA` was pushed too, which is not executed. -/
def pushedBA : ControllerState Nat :=
  { pushedB with
    forkDb := {
      index := ⟨[⟨blockA, false⟩, ⟨blockB, true⟩], by decide⟩
      root := rootBlock
      head := blockB } }

/-- The state after `blockD` was pushed and turned out to be invalid: `blockA` stays
validated, and comes before `blockB` in the index. -/
def rejectedD (forkHead : BlockState) : ControllerState Nat :=
  { pushedBA with
    forkDb := {
      index := ⟨[⟨blockA, true⟩, ⟨blockB, true⟩], by decide⟩
      root := rootBlock
      head := forkHead } }

theorem headsAgree_onlyRoot : HeadsAgree onlyRoot := ⟨rfl, by decide⟩

/-- When `blockD` is pushed a second time, `add` makes `blockA` the head of the fork
database, and the failed switch leaves it so. -/
theorem heads_differ_after_add :
    pushBlock (counting blockD.id) (.ok blockB) onlyRoot = .ok () pushedB ∧
      pushBlock (counting blockD.id) (.ok blockA) pushedB = .ok () pushedBA ∧
      pushBlock (counting blockD.id) (.ok blockD) pushedBA =
        .error ⟨.blockValidateException, "receipt does not match"⟩ (rejectedD blockB) ∧
      pushBlock (counting blockD.id) (.ok blockD) (rejectedD blockB) =
        .error ⟨.blockValidateException, "receipt does not match"⟩ (rejectedD blockA) ∧
      HeadsAgree onlyRoot ∧ HeadsAgree (rejectedD blockB) ∧ ¬ HeadsAgree (rejectedD blockA) := by
  refine ⟨by decide +kernel, by decide +kernel, by decide +kernel, by decide +kernel,
    headsAgree_onlyRoot, ⟨rfl, by decide⟩, ?_⟩
  rintro ⟨same, -⟩
  exact absurd same (by decide)

theorem headLeads_of_begin {db : ForkDatabase} {entry : ForkEntry}
    (isFirst : db.index.begin = some entry) (isHead : entry.block = db.head) : db.HeadLeads := by
  intro first begins _
  rw [isFirst] at begins
  cases begins
  exact isHead

/-- Before every push of the run the head is in its place, also after the switch of forks. -/
theorem headsAgree_of_run_loggedB : HeadsAgree switchedC ∧ HeadsAgree loggedB := by
  obtain ⟨first, second, third, fourth⟩ := calls_to_loggedB
  have run : Run (LedCall (counting 0)) onlyRoot [loggedB, switchedC, pushedAB, pushedA] loggedB :=
    .snoc (.snoc (.snoc (.snoc .refl ⟨fun _ isFirst => (by cases isFirst), first⟩)
      ⟨@headLeads_of_begin _ ⟨blockA, true⟩ (by decide) rfl, second⟩)
      ⟨@headLeads_of_begin _ ⟨blockA, true⟩ (by decide) rfl, third⟩)
      ⟨@headLeads_of_begin _ ⟨blockC, true⟩ (by decide) rfl, fourth⟩
  have agree := headsAgree_of_run (quiet_counting _) (replays_counting _) (synced_onlyRoot _)
    logged_onlyRoot headsAgree_onlyRoot run
  exact ⟨agree _ (by simp), agree _ (by simp)⟩

end ControllerM

end CodexRelay.Chain
