import CodexRelay.Library.FlatSet
import CodexRelay.Library.Sweep
import CodexRelay.Chain.ScheduledTransactions
import CodexRelay.Chain.EosioContract.PermissionForest

/-!
Contract: the scheduled transactions that a producer attempts at the start of a block.

Owns:
- the loop over the index `by_delay` in `start_block` of `producer_plugin.cpp`, with its
  deadlines, its blacklist and the input transactions that it lets through in between;
- that the loop ends, and that it attempts every transaction that is due once and in order, unless
  an earlier one removed it.

Does not own: the clock and the weight that decides how many input transactions are let through.
Both are given for each attempt.
-/

namespace CodexRelay.Plugins.ProducerPlugin

open Library Chain List ChainDb

variable {gto : GeneratedTransactionObject} {bound : Nat ×ₗ Nat} {time : Nat}

def failureIsSubjective (code : ExceptionCode) (deadlineIsSubjective : Bool) : Bool :=
  code = .blockCpuUsageExceeded || code = .blockNetUsageExceeded ||
    (code = .deadlineException && deadlineIsSubjective)

structure Turn where
  /-- whether the deadline has passed at each check on the way to the next transaction -/
  late : Nat → Bool
  /-- the input transactions that are let through -/
  incoming : List (List DeferredCall)
  /-- whether the deadline has passed behind them -/
  lateBehind : Bool
  deadlineIsSubjective : Bool
  script : RetireScript

inductive Scan where
  | finished
  | exhausted
  | due (gto : GeneratedTransactionObject) (next : Option GeneratedTransactionObject)

/-- The loop up to an attempt; `checks` counts the checks of the deadline. -/
def scan (pendingBlockTime : Nat) (blacklist : List TransactionId) (late : Nat → Bool) :
    Nat → List GeneratedTransactionObject → Scan
  | _, [] => .finished
  | checks, gto :: behind =>
    if pendingBlockTime < gto.delayUntil then .finished
    else if pendingBlockTime ≤ gto.published then
      scan pendingBlockTime blacklist late checks behind
    else if late checks then .exhausted
    else if gto.trxId ∈ blacklist then
      scan pendingBlockTime blacklist late (checks + 1) behind
    else .due gto behind.head?

def byDelayIndex (state : GeneratedDb) : List GeneratedTransactionObject :=
  state.objects.insertionSort fun gto other => gto.byDelay ≤ other.byDelay

/-- `lower_bound` in the index `by_delay`. -/
def lowerBound (state : GeneratedDb) (key : Nat ×ₗ Nat) : List GeneratedTransactionObject :=
  (byDelayIndex state).dropWhile (·.byDelay < key)

/-- `process_incoming_transaction_async`: a transaction that fails is undone. -/
def processIncoming (control : Control) (state : GeneratedDb) (calls : List DeferredCall) :
    GeneratedDb :=
  match state.run control calls with
  | .ok after => after
  | .error _ => state

/-- An attempt: the transaction whose turn it is, and the tables when it is pushed and behind it. -/
structure Attempt where
  gto : GeneratedTransactionObject
  before : GeneratedDb
  after : GeneratedDb

structure Swept where
  exhausted : Bool
  attempts : List Attempt
  blacklist : List TransactionId
  state : GeneratedDb

/-- The blacklist behind an attempt, or nothing if the block is exhausted. -/
def blacklistBehind (turn : Turn) (blacklist : List TransactionId) (trxId : TransactionId) :
    Checked (Option ChainException) → Option (List TransactionId)
  | .ok (some failure) =>
    if failureIsSubjective failure.code turn.deadlineIsSubjective then none
    else some (trxId :: blacklist)
  | _ => some blacklist

/-- The loop over the scheduled transactions, for a number of attempts. -/
def sweep (control : Control) (turns : Nat → Turn) : (fuel attempt : Nat) →
    (blacklist : List TransactionId) → GeneratedDb → List GeneratedTransactionObject → Option Swept
  | 0, _, _, _, _ => none
  | fuel + 1, attempt, blacklist, state, schItr =>
    let turn := turns attempt
    match scan control.pendingBlockTime blacklist turn.late 0 schItr with
    | .finished => some ⟨false, [], blacklist, state⟩
    | .exhausted => some ⟨true, [], blacklist, state⟩
    | .due gto next =>
      let state := turn.incoming.foldl (processIncoming control) state
      if turn.lateBehind then some ⟨true, [], blacklist, state⟩
      else
        let (result, after) := state.pushScheduledTransaction control turn.script gto.trxId
        let made : Attempt := ⟨gto, state, after⟩
        match blacklistBehind turn blacklist gto.trxId result with
        | none => some ⟨true, [made], blacklist, after⟩
        | some blacklist =>
          match next with
          | none => some ⟨false, [made], blacklist, after⟩
          | some next =>
            (sweep control turns fuel (attempt + 1) blacklist after
              (lowerBound after next.byDelay)).map fun swept =>
                { swept with attempts := made :: swept.attempts }

def sweepScheduled (control : Control) (turns : Nat → Turn) (fuel : Nat)
    (blacklist : List TransactionId) (state : GeneratedDb) : Option Swept :=
  sweep control turns fuel 0 blacklist state (lowerBound state (toLex (0, 0)))

/-! ### The index -/

variable {control : Control} {state : GeneratedDb}

theorem nodup_objects (state : GeneratedDb) : state.objects.Nodup := by
  have keys : state.objects.map (fun gto => (gto.sender, gto.senderId)) =
      state.db.generatedTransactions.keys := by
    unfold GeneratedDb.objects AList.keys List.keys
    rw [map_map]
    rfl
  apply List.Nodup.of_map fun gto : GeneratedTransactionObject => (gto.sender, gto.senderId)
  rw [keys]
  exact state.db.generatedTransactions.keys_nodup

theorem mem_byDelayIndex : gto ∈ byDelayIndex state ↔ gto ∈ state.objects := mem_insertionSort _

section

variable (unique : state.Unique)

include unique

theorem byDelayIndex_sorted : (byDelayIndex state).Pairwise (·.byDelay < ·.byDelay) := by
  have total : Std.Total fun gto other : GeneratedTransactionObject => gto.byDelay ≤ other.byDelay :=
    ⟨fun gto other => le_total gto.byDelay other.byDelay⟩
  have transitive : IsTrans GeneratedTransactionObject fun gto other => gto.byDelay ≤ other.byDelay :=
    ⟨fun _ _ _ before behind => before.trans behind⟩
  have ordered : (byDelayIndex state).Pairwise fun gto other => gto.byDelay ≤ other.byDelay :=
    pairwise_insertionSort _ _
  have distinct : (byDelayIndex state).Nodup :=
    (perm_insertionSort _ _).nodup_iff.mpr (nodup_objects state)
  refine (ordered.and distinct).imp_of_mem fun {gto other} member otherMember ⟨le, differs⟩ => ?_
  refine le.lt_of_ne fun same => differs ?_
  exact unique.byId (mem_byDelayIndex.mp member) (mem_byDelayIndex.mp otherMember)
    (Prod.mk.inj (toLex_inj.mp same)).2

theorem lowerBound_sorted (bound : Nat ×ₗ Nat) :
    (lowerBound state bound).Pairwise (·.byDelay < ·.byDelay) :=
  (byDelayIndex_sorted unique).sublist (dropWhile_sublist _)

theorem mem_lowerBound_byDelay :
    gto ∈ lowerBound state bound ↔ gto ∈ state.objects ∧ bound ≤ gto.byDelay := by
  unfold lowerBound
  rw [FlatSet.mem_dropWhile_lt (byDelayIndex_sorted unique), mem_byDelayIndex]

end

/-! ### The way to the next transaction -/

structure Due (pendingBlockTime : Nat) (state : List TransactionId × GeneratedDb)
    (gto : GeneratedTransactionObject) : Prop where
  member : gto ∈ state.2.objects
  delay : gto.delayUntil ≤ pendingBlockTime
  published : gto.published < pendingBlockTime
  listed : gto.trxId ∉ state.1

theorem delayUntil_le {other : GeneratedTransactionObject} (before : gto.byDelay < other.byDelay) :
    gto.delayUntil ≤ other.delayUntil := by
  rcases Prod.Lex.toLex_lt_toLex.mp before with earlier | ⟨same, -⟩
  · exact earlier.le
  · exact same.le

section Scans

variable {pendingBlockTime : Nat} {blacklist : List TransactionId} {late : Nat → Bool}
  {schItr : List GeneratedTransactionObject}

theorem scan_finished (sorted : schItr.Pairwise (·.byDelay < ·.byDelay)) {checks : Nat}
    (ended : scan pendingBlockTime blacklist late checks schItr = .finished) :
    ∀ gto ∈ schItr, gto.delayUntil ≤ pendingBlockTime → gto.published < pendingBlockTime →
      gto.trxId ∈ blacklist := by
  induction schItr generalizing checks with
  | nil => exact fun _ member => absurd member not_mem_nil
  | cons first behind ih =>
    obtain ⟨before, sorted⟩ := pairwise_cons.mp sorted
    intro gto member delay published
    unfold scan at ended
    split_ifs at ended with early new isLate listed
    · -- all that come later are scheduled for later, too
      rcases mem_cons.mp member with rfl | member
      · exact absurd delay early.not_ge
      · exact absurd ((delayUntil_le (before gto member)).trans delay) early.not_ge
    · rcases mem_cons.mp member with rfl | member
      · exact absurd published new.not_gt
      · exact ih sorted ended gto member delay published
    · rcases mem_cons.mp member with rfl | member
      · exact listed
      · exact ih sorted ended gto member delay published

theorem scan_due {checks : Nat} {next : Option GeneratedTransactionObject}
    (ended : scan pendingBlockTime blacklist late checks schItr = .due gto next) :
    ∃ skipped behind, schItr = skipped ++ gto :: behind ∧ next = behind.head? ∧
      (∀ other ∈ skipped, other.published < pendingBlockTime → other.trxId ∈ blacklist) ∧
      gto.delayUntil ≤ pendingBlockTime ∧ gto.published < pendingBlockTime ∧
      gto.trxId ∉ blacklist := by
  induction schItr generalizing checks with
  | nil => cases ended
  | cons first behind ih =>
    unfold scan at ended
    split_ifs at ended with early new isLate listed
    · obtain ⟨skipped, rest, rfl, isNext, passed, isDue⟩ := ih ended
      refine ⟨first :: skipped, rest, rfl, isNext, fun other member published => ?_, isDue⟩
      rcases mem_cons.mp member with rfl | member
      · exact absurd published new.not_gt
      · exact passed other member published
    · obtain ⟨skipped, rest, rfl, isNext, passed, isDue⟩ := ih ended
      refine ⟨first :: skipped, rest, rfl, isNext, fun other member published => ?_, isDue⟩
      rcases mem_cons.mp member with rfl | member
      · exact listed
      · exact passed other member published
    · obtain ⟨rfl, rfl⟩ := Scan.due.inj ended
      exact ⟨[], behind, rfl, rfl, fun _ member => absurd member not_mem_nil, not_lt.mp early,
        not_le.mp new, listed⟩

end Scans

/-! ### Turns -/

theorem processIncoming_evolves (state : GeneratedDb) (incoming : List (List DeferredCall)) :
    GeneratedDb.Evolves control.pendingBlockTime state
      (incoming.foldl (processIncoming control) state) := by
  induction incoming generalizing state with
  | nil => exact .refl _ _
  | cons calls incoming ih =>
    refine .trans ?_ (ih (processIncoming control state calls))
    unfold processIncoming
    split
    · rename_i ran
      exact GeneratedDb.run_evolves ran
    · exact .refl _ _

theorem findTrxId_of_mem (unique : state.Unique) (member : gto ∈ state.objects) :
    state.findTrxId gto.trxId = some gto := by
  unfold GeneratedDb.findTrxId
  cases search : state.objects.find? (·.trxId = gto.trxId) with
  | none => exact absurd (decide_eq_true rfl) (find?_eq_none.mp search gto member)
  | some other =>
    have chosen := find?_some search
    have same := of_decide_eq_true chosen
    rw [unique.byTrxId (mem_of_find?_eq_some search) member same]

/-- At most the transaction that was attempted is added to the blacklist. -/
theorem mem_blacklistBehind {turn : Turn} {blacklist blacklist' : List TransactionId}
    {trxId : TransactionId} {result : Checked (Option ChainException)}
    (isBehind : blacklistBehind turn blacklist trxId result = some blacklist') :
    (∀ id ∈ blacklist, id ∈ blacklist') ∧ ∀ id ∈ blacklist', id = trxId ∨ id ∈ blacklist := by
  unfold blacklistBehind at isBehind
  split at isBehind
  · split_ifs at isBehind
    obtain rfl := Option.some.inj isBehind
    exact ⟨fun id member => mem_cons_of_mem _ member, fun id member => mem_cons.mp member⟩
  · obtain rfl := Option.some.inj isBehind
    exact ⟨fun id member => member, fun id member => .inr member⟩

def Present (state : List TransactionId × GeneratedDb) (gto : GeneratedTransactionObject) : Prop :=
  gto ∈ state.2.objects

theorem visit_of_evolves {blacklist blacklist' : List TransactionId} {after : GeneratedDb}
    (unique : state.Unique) (due : Due time (blacklist, state) gto) (inRange : bound ≤ gto.byDelay)
    (evolves : GeneratedDb.Evolves time state after) (kept : ∀ id ∈ blacklist, id ∈ blacklist')
    (added : ∀ id ∈ blacklist', id = gto.trxId ∨ id ∈ blacklist) :
    Visit GeneratedTransactionObject.byDelay (Due time) Present bound (blacklist, state) gto
      (blacklist', after) where
  due := due
  inRange := inRange
  shrinks := by
    intro other otherDue
    rcases evolves.old other otherDue.member with old | new
    · exact ⟨old, otherDue.delay, otherDue.published, fun listed => otherDue.listed (kept _ listed)⟩
    · exact absurd new otherDue.published.ne
  keeps := by
    intro other otherDue differs present
    refine ⟨present, otherDue.delay, otherDue.published, fun listed => ?_⟩
    rcases added _ listed with same | listed
    · exact differs (unique.byTrxId otherDue.member due.member same)
    · exact otherDue.listed listed

/-- What is due from a bound on is the transaction that is found or comes behind it. -/
theorem due_cases {time : Nat} {bound : Nat ×ₗ Nat} {blacklist : List TransactionId}
    {skipped behind : List GeneratedTransactionObject} {gto : GeneratedTransactionObject}
    (unique : state.Unique) (split : lowerBound state bound = skipped ++ gto :: behind)
    (passed : ∀ other ∈ skipped, other.published < time → other.trxId ∈ blacklist)
    {other : GeneratedTransactionObject} (due : Due time (blacklist, state) other)
    (inRange : bound ≤ other.byDelay) : other = gto ∨ other ∈ behind := by
  have member := (mem_lowerBound_byDelay unique).mpr ⟨due.member, inRange⟩
  rw [split] at member
  rcases mem_append.mp member with isSkipped | member
  · exact absurd (passed other isSkipped due.published) due.listed
  · exact mem_cons.mp member

/-! ### The loop -/

section Loop

variable {turns : Nat → Turn}

/-- The loop is a sweep over the transactions that are due, and it pushes each of them that is
still there. -/
theorem sweep_follows {fuel attempt : Nat} {blacklist : List TransactionId} {swept : Swept}
    (unique : state.Unique)
    (ran : sweep control turns fuel attempt blacklist state (lowerBound state bound) = some swept)
    (completed : swept.exhausted = false) :
    (∃ visits, Sweep GeneratedTransactionObject.byDelay (Due control.pendingBlockTime) Present bound
        (blacklist, state) visits ∧
      visits.map (fun visit => (visit.1, visit.2.2)) =
        swept.attempts.map (fun made => (made.gto, made.after))) ∧
    ∀ made ∈ swept.attempts, made.gto ∈ made.before.objects →
      made.before.findTrxId made.gto.trxId = some made.gto := by
  induction fuel generalizing attempt blacklist state bound swept with
  | zero => cases ran
  | succ fuel ih =>
    unfold sweep at ran
    dsimp only at ran
    split at ran
    · rename_i ended
      obtain rfl := Option.some.inj ran
      refine ⟨⟨[], .finished fun gto due inRange => due.listed ?_, rfl⟩,
        fun _ member => absurd member not_mem_nil⟩
      exact scan_finished (lowerBound_sorted unique bound) ended gto
        ((mem_lowerBound_byDelay unique).mpr ⟨due.member, inRange⟩) due.delay due.published
    · obtain rfl := Option.some.inj ran
      cases completed
    · rename_i gto next found
      obtain ⟨skipped, behind, split, rfl, passed, delay, published, listed⟩ := scan_due found
      obtain ⟨member, inRange⟩ := (mem_lowerBound_byDelay unique).mp
        (split ▸ mem_append_right skipped mem_cons_self : gto ∈ lowerBound state bound)
      have due : Due control.pendingBlockTime (blacklist, state) gto :=
        ⟨member, delay, published, listed⟩
      set before := (turns attempt).incoming.foldl (processIncoming control) state with isBefore
      have evolvesBefore : GeneratedDb.Evolves control.pendingBlockTime state before :=
        processIncoming_evolves state _
      have evolves := evolvesBefore.trans
        (before.pushScheduledTransaction_evolves (turns attempt).script gto.trxId)
      split_ifs at ran with isLate
      · obtain rfl := Option.some.inj ran
        cases completed
      · set after := (before.pushScheduledTransaction control (turns attempt).script gto.trxId).2
          with isAfter
        have pushes : ∀ made ∈ [(⟨gto, before, after⟩ : Attempt)], made.gto ∈ made.before.objects →
            made.before.findTrxId made.gto.trxId = some made.gto := by
          intro made member there
          obtain rfl := mem_singleton.mp member
          exact findTrxId_of_mem (evolvesBefore.unique unique) there
        split at ran
        · obtain rfl := Option.some.inj ran
          cases completed
        · rename_i blacklist' isBehind
          obtain ⟨kept, added⟩ := mem_blacklistBehind isBehind
          have visit := visit_of_evolves unique due inRange evolves kept added
          have covered := fun other => @due_cases _ _ _ _ _ _ _ unique split passed other
          cases behind with
          | nil =>
            obtain rfl := Option.some.inj ran
            refine ⟨⟨[(gto, (blacklist', after))], .last visit ?_, rfl⟩, pushes⟩
            intro other otherDue otherInRange
            exact (covered other otherDue otherInRange).resolve_right not_mem_nil
          | cons next behind =>
            obtain ⟨later, ranLater, rfl⟩ := Option.map_eq_some_iff.mp ran
            obtain ⟨⟨visits, isSweep, same⟩, laterPushes⟩ :=
              ih (evolves.unique unique) ranLater completed
            have sorted := lowerBound_sorted unique bound
            rw [split] at sorted
            obtain ⟨aheadOfAll, sortedBehind⟩ := pairwise_cons.mp (pairwise_append.mp sorted).2.1
            refine ⟨⟨(gto, (blacklist', after)) :: visits, .more visit ?_ ?_ isSweep, ?_⟩, ?_⟩
            · exact aheadOfAll next mem_cons_self
            · intro other otherDue otherInRange
              refine (covered other otherDue otherInRange).imp_right fun isBehind => ?_
              rcases mem_cons.mp isBehind with rfl | isBehind
              · exact le_rfl
              · exact ((pairwise_cons.mp sortedBehind).1 other isBehind).le
            · rw [map_cons, map_cons, same]
            · intro made member
              rcases mem_cons.mp member with rfl | member
              · exact pushes _ mem_cons_self
              · exact laterPushes made member

/-- The transactions from a bound on that were there before the block. -/
def waitingFrom (time : Nat) (bound : Nat ×ₗ Nat) (state : GeneratedDb) :
    List GeneratedTransactionObject :=
  state.objects.filter fun gto => bound ≤ gto.byDelay ∧ gto.published < time

theorem mem_waitingFrom :
    gto ∈ waitingFrom time bound state ↔
      gto ∈ state.objects ∧ bound ≤ gto.byDelay ∧ gto.published < time := by
  unfold waitingFrom
  rw [mem_filter, decide_eq_true_iff]

theorem length_waitingFrom_lt {next : Nat ×ₗ Nat} {after : GeneratedDb}
    (member : gto ∈ waitingFrom time bound state) (behind : gto.byDelay < next)
    (evolves : GeneratedDb.Evolves time state after) :
    (waitingFrom time next after).length < (waitingFrom time bound state).length := by
  obtain ⟨-, inRange, -⟩ := mem_waitingFrom.mp member
  have subset : waitingFrom time next after ⊆ (waitingFrom time bound state).erase gto := by
    intro other isWaiting
    obtain ⟨isThere, otherInRange, published⟩ := mem_waitingFrom.mp isWaiting
    have differs : other ≠ gto := by
      rintro rfl
      exact absurd otherInRange behind.not_ge
    refine (mem_erase_of_ne differs).mpr (mem_waitingFrom.mpr ⟨?_, ?_, published⟩)
    · exact (evolves.old other isThere).resolve_right published.ne
    · exact (inRange.trans behind.le).trans otherInRange
  have fewer : (waitingFrom time next after).length ≤ ((waitingFrom time bound state).erase gto).length :=
    (((nodup_objects after).filter _).subperm subset).length_le
  rw [length_erase_of_mem member] at fewer
  have positive := length_pos_of_mem member
  omega

/-- The loop ends: every attempt takes one of the transactions that were there before. -/
theorem sweep_returns {fuel attempt : Nat} {blacklist : List TransactionId} {bound : Nat ×ₗ Nat}
    (unique : state.Unique)
    (enough : (waitingFrom control.pendingBlockTime bound state).length < fuel) :
    ∃ swept, sweep control turns fuel attempt blacklist state (lowerBound state bound) = some swept := by
  induction fuel generalizing attempt blacklist state bound with
  | zero => exact absurd enough (Nat.not_lt_zero _)
  | succ fuel ih =>
    unfold sweep
    dsimp only
    split
    · exact ⟨_, rfl⟩
    · exact ⟨_, rfl⟩
    · rename_i gto next found
      obtain ⟨skipped, behind, split, rfl, -, -, published, -⟩ := scan_due found
      obtain ⟨member, inRange⟩ := (mem_lowerBound_byDelay unique).mp
        (split ▸ mem_append_right skipped mem_cons_self : gto ∈ lowerBound state bound)
      have evolves := (@processIncoming_evolves control state (turns attempt).incoming).trans
        (GeneratedDb.pushScheduledTransaction_evolves _ (turns attempt).script gto.trxId)
      split_ifs
      · exact ⟨_, rfl⟩
      · split
        · exact ⟨_, rfl⟩
        · cases behind with
          | nil => exact ⟨_, rfl⟩
          | cons next behind =>
            have sorted := lowerBound_sorted unique bound
            rw [split] at sorted
            obtain ⟨aheadOfAll, -⟩ := pairwise_cons.mp (pairwise_append.mp sorted).2.1
            have fewer := length_waitingFrom_lt (mem_waitingFrom.mpr ⟨member, inRange, published⟩)
              (aheadOfAll next mem_cons_self) evolves
            obtain ⟨later, ranLater⟩ := ih (evolves.unique unique)
              (Nat.lt_of_lt_of_le fewer (Nat.le_of_lt_succ enough))
            exact ⟨_, congrArg (Option.map _) ranLater⟩

end Loop

/-- The loop ends. Unless it is exhausted, it attempts transactions that are due in the order of the
index, each once, and pushes the object itself if it is still there; every transaction that is due
is attempted, or an earlier attempt left the table without it. -/
theorem sweepScheduled_attempts (control : Control) (turns : Nat → Turn)
    (blacklist : List TransactionId) (unique : state.Unique) {fuel : Nat}
    (enough : state.objects.length < fuel) :
    ∃ swept, sweepScheduled control turns fuel blacklist state = some swept ∧
      (swept.exhausted = false →
        (swept.attempts.map (·.gto.byDelay)).Pairwise (· < ·) ∧
        (∀ made ∈ swept.attempts, Due control.pendingBlockTime (blacklist, state) made.gto ∧
          (made.gto ∈ made.before.objects →
            made.before.findTrxId made.gto.trxId = some made.gto)) ∧
        ∀ gto, Due control.pendingBlockTime (blacklist, state) gto →
          (∃ made ∈ swept.attempts, made.gto = gto) ∨
            ∃ made ∈ swept.attempts, made.gto.byDelay < gto.byDelay ∧
              gto ∉ made.after.objects) := by
  have fewer : (waitingFrom control.pendingBlockTime (toLex (0, 0)) state).length < fuel :=
    (length_filter_le _ _).trans_lt enough
  obtain ⟨swept, ran⟩ := @sweep_returns control state turns fuel 0 blacklist _ unique fewer
  refine ⟨swept, ran, fun completed => ?_⟩
  obtain ⟨⟨visits, isSweep, same⟩, pushes⟩ := sweep_follows unique ran completed
  have visited : ∀ made ∈ swept.attempts, ∃ visit ∈ visits, visit.1 = made.gto := by
    intro made member
    have isPair := mem_map_of_mem (f := fun made : Attempt => (made.gto, made.after)) member
    rw [← same] at isPair
    obtain ⟨visit, isVisit, isSame⟩ := mem_map.mp isPair
    exact ⟨visit, isVisit, (Prod.mk.inj isSame).1⟩
  have attempted : ∀ visit ∈ visits, ∃ made ∈ swept.attempts,
      made.gto = visit.1 ∧ made.after = visit.2.2 := by
    intro visit member
    have isPair := mem_map_of_mem
      (f := fun visit : GeneratedTransactionObject × List TransactionId × GeneratedDb =>
        (visit.1, visit.2.2)) member
    rw [same] at isPair
    obtain ⟨made, isMade, isSame⟩ := mem_map.mp isPair
    exact ⟨made, isMade, Prod.mk.inj isSame⟩
  refine ⟨?_, ?_, ?_⟩
  · have keys : swept.attempts.map (·.gto.byDelay) = visits.map (·.1.byDelay) := by
      have mapped := congrArg (List.map fun pair => pair.1.byDelay) same
      rw [map_map, map_map] at mapped
      exact mapped.symm
    rw [keys]
    exact isSweep.ordered
  · intro made member
    obtain ⟨visit, isVisit, isGto⟩ := visited made member
    rw [← isGto]
    exact ⟨(isSweep.due visit isVisit).1, isGto ▸ pushes made member⟩
  · intro gto due
    have inRange : toLex (0, 0) ≤ gto.byDelay := by
      rw [GeneratedTransactionObject.byDelay, Prod.Lex.toLex_le_toLex]
      rcases Nat.eq_zero_or_pos gto.delayUntil with zero | positive
      · exact .inr ⟨zero.symm, Nat.zero_le _⟩
      · exact .inl positive
    rcases isSweep.visited due inRange with ⟨after, member⟩ | ⟨visit, member, before, gone⟩
    · obtain ⟨made, isMade, isGto, -⟩ := attempted _ member
      exact .inl ⟨made, isMade, isGto⟩
    · obtain ⟨made, isMade, isGto, isAfter⟩ := attempted _ member
      refine .inr ⟨made, isMade, ?_, ?_⟩
      · rw [isGto]
        exact before
      · rw [isAfter]
        exact gone

def twoScheduled : GeneratedDb where
  db := { withBob with
    generatedTransactions := AList.insert (bob, 1) ⟨1, bob, 10, 70000000, 5, []⟩
        (AList.insert (bob, 2) ⟨2, bob, 10, 70000000, 5, []⟩ ∅) }
  ids := Prod.snd
  nextId := 3

def cancelTurn : Turn where
  late _ := false
  incoming := []
  lateBehind := false
  deadlineIsSubjective := false
  script :=
    { guard := .ok ()
      unpacked := .ok ()
      expired := []
      transaction := [.cancel 2 bob]
      onerror := []
      billing := []
      emitted := .ok () }

theorem unique_twoScheduled : twoScheduled.Unique := by
  have distinct : ∀ gto ∈ twoScheduled.objects, ∀ other ∈ twoScheduled.objects,
      (gto.id = other.id ∨ gto.trxId = other.trxId → gto = other) ∧
        gto.id < twoScheduled.nextId := by
    decide +kernel
  refine ⟨?_, ?_, fun gto member => (distinct gto member gto member).2⟩
  · intro gto other member otherMember same
    exact (distinct gto member other otherMember).1 (.inl same)
  · intro gto other member otherMember same
    exact (distinct gto member other otherMember).1 (.inr same)

theorem sweepScheduled_attempts_cancelled :
    ∃ swept, sweepScheduled freeControl (fun _ => cancelTurn) 3 [] twoScheduled = some swept ∧
      swept.exhausted = false ∧ swept.attempts.map (·.gto.id) = [1] ∧
      (swept.attempts.map (·.gto.byDelay)).Pairwise (· < ·) := by
  obtain ⟨swept, ran, holds⟩ := sweepScheduled_attempts freeControl (fun _ => cancelTurn) []
    unique_twoScheduled (show twoScheduled.objects.length < 3 by decide +kernel)
  have result : (sweepScheduled freeControl (fun _ => cancelTurn) 3 [] twoScheduled).map
      (fun swept => (swept.exhausted, swept.attempts.map (·.gto.id))) = some (false, [1]) := by
    decide +kernel
  rw [ran] at result
  obtain ⟨completed, attempts⟩ := Prod.mk.inj (Option.some.inj result)
  exact ⟨swept, ran, completed, attempts, (holds completed).1⟩

end CodexRelay.Plugins.ProducerPlugin
