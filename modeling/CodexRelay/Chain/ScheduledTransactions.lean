import CodexRelay.Chain.ApplyContext.Model

/-!
Contract: the table of generated transactions with the ids of its objects, and what transactions do
to it.

Owns:
- the calls that schedule and cancel generated transactions, with the ids they give out;
- `push_scheduled_transaction` of `controller.cpp`, with all its ways to end;
- `Unique`: the unique indices of the table;
- `Evolves`: objects are removed, and those that are created are published at the time of the
  pending block. All calls, transactions and retirements do no more than that.

Does not own: what the code of a transaction decides to do. A transaction is given by the calls that
its code makes; a call that throws ends it.
-/

namespace CodexRelay.Chain

open Library

/-- `generated_transaction_object` with its id and the key of the index `by_sender_id`. -/
structure GeneratedTransactionObject extends GeneratedTransaction where
  id : Nat
  sender : AccountName
  senderId : Nat
deriving DecidableEq

def GeneratedTransactionObject.byDelay (gto : GeneratedTransactionObject) : Nat ×ₗ Nat :=
  toLex (gto.delayUntil, gto.id)

/-- The tables, with the ids of the generated transactions by sender and sender id. -/
structure GeneratedDb where
  db : ChainDb
  ids : AccountName × Nat → Nat
  nextId : Nat

inductive DeferredCall where
  | schedule (context : ApplyContext) (senderId : Nat) (payer : AccountName) (trx : Transaction)
      (replaceExisting : Bool)
  | cancel (senderId : Nat) (sender : AccountName)
  /-- an input transaction with a delay is stored -/
  | delay (host : Host) (id : TransactionId) (delaySec : Nat) (trx : Transaction)
  /-- work on other tables, or a failure -/
  | other (work : ChainDb → Checked ChainDb)

structure RetireScript where
  /-- `validate_db_available_size` -/
  guard : Checked Unit
  /-- `fc::raw::unpack` of the transaction -/
  unpacked : Checked Unit
  /-- the receipt of an expired transaction and its signals -/
  expired : List DeferredCall
  /-- from `check_action` to the signals -/
  transaction : List DeferredCall
  /-- `apply_onerror` -/
  onerror : List DeferredCall
  /-- the usage that is billed for a hard failure, and its receipt -/
  billing : List DeferredCall
  /-- the signals behind a failure -/
  emitted : Checked Unit

def ExceptionCode.failureIsSubjective : ExceptionCode → Bool
  | .subjectiveBlockProductionException => true
  | .blockNetUsageExceeded => true
  | .greylistNetUsageExceeded => true
  | .blockCpuUsageExceeded => true
  | .greylistCpuUsageExceeded => true
  | .deadlineException => true
  | .leewayDeadlineException => true
  | .actorWhitelistException => true
  | .actorBlacklistException => true
  | .contractWhitelistException => true
  | .contractBlacklistException => true
  | .actionBlacklistException => true
  | .keyBlacklistException => true
  | _ => false

def ExceptionCode.scheduledFailureIsSubjective (code : ExceptionCode) : Bool :=
  code = .txCpuUsageExceeded || code.failureIsSubjective

/-- The exceptions that `push_scheduled_transaction` and `apply_onerror` catch. -/
def ExceptionCode.isCaught (code : ExceptionCode) : Bool :=
  code.isFc && code ≠ .disallowedTransactionExtensionsBadBlockException &&
    code ≠ .protocolFeatureBadBlockException

namespace GeneratedDb

variable (control : Control) (state : GeneratedDb)

def objects : List GeneratedTransactionObject :=
  state.db.generatedTransactions.entries.map fun entry =>
    { entry.2 with id := state.ids entry.1, sender := entry.1.1, senderId := entry.1.2 }

def created (db : ChainDb) (key : AccountName × Nat) : GeneratedDb where
  db := db
  ids := Function.update state.ids key state.nextId
  nextId := state.nextId + 1

/-- A call of a transaction in the pending block. -/
def call : DeferredCall → Checked GeneratedDb
  | .schedule context senderId payer trx replaceExisting => do
      let db ← state.db.scheduleDeferredTransaction { context with control } senderId payer trx
        replaceExisting
      return state.created db (context.receiver, senderId)
  | .cancel senderId sender => do
      let (_, db) ← state.db.cancelDeferredTransaction senderId sender
      return { state with db }
  | .delay host id delaySec trx => do
      let db ← state.db.scheduleTransaction host control id delaySec trx
      return state.created db (0, ChainDb.transactionIdToSenderId id)
  | .other work => do
      let db ← work state.db
      return { state with db :=
        { db with generatedTransactions := state.db.generatedTransactions } }

def run (calls : List DeferredCall) : Checked GeneratedDb :=
  calls.foldlM (call control) state

/-- The end of `push_scheduled_transaction` for a failure that is not handled by the sender;
`before` is the state to which the session is undone. -/
def fail (before : GeneratedDb) (script : RetireScript) (failure : ChainException) :
    Checked (Option ChainException × GeneratedDb) :=
  if failure.code.scheduledFailureIsSubjective then do
    script.emitted
    return (some failure, before)
  else do
    let billed ← state.run control script.billing
    script.emitted
    return (some failure, billed)

/-- `push_scheduled_transaction` behind the failure of the transaction. -/
def handleFailure (before : GeneratedDb) (script : RetireScript) (gto : GeneratedTransactionObject)
    (failure : ChainException) : Checked (Option ChainException × GeneratedDb) :=
  if gto.sender ≠ 0 ∧ ¬ failure.code.failureIsSubjective then
    match state.run control script.onerror with
    | .ok handled => do
        script.emitted
        return (none, handled)
    | .error thrown =>
      if thrown.code.isCaught then state.fail control before script thrown else .error thrown
  else state.fail control before script failure

/-- `push_scheduled_transaction` of an object: the exception of the trace and the tables. -/
def retire (script : RetireScript) (gto : GeneratedTransactionObject) :
    Checked (Option ChainException × GeneratedDb) := do
  let db ← state.db.removeScheduledTransaction gto.sender gto.senderId
  let removed : GeneratedDb := { state with db }
  eosAssert (gto.delayUntil ≤ control.pendingBlockTime) .transactionException
    "this transaction isn't ready"
  script.unpacked
  if gto.expiration < control.pendingBlockTime then do
    let expired ← removed.run control script.expired
    return (none, expired)
  else
    match removed.run control script.transaction with
    | .ok executed => return (none, executed)
    | .error failure =>
      if failure.code.isCaught then removed.handleFailure control state script gto failure
      else .error failure

def findTrxId (trxId : TransactionId) : Option GeneratedTransactionObject :=
  state.objects.find? (·.trxId = trxId)

/-- `push_scheduled_transaction`: the exception of the trace, or what is thrown, and the tables. An
exception leaves through the session, which is undone. -/
def pushScheduledTransaction (script : RetireScript) (trxId : TransactionId) :
    Checked (Option ChainException) × GeneratedDb :=
  match script.guard with
  | .error thrown => (.error thrown, state)
  | .ok () =>
    match state.findTrxId trxId with
    | none => (.error ⟨.unknownTransactionException, "unknown transaction"⟩, state)
    | some gto =>
      match captureAndRethrow (state.retire control script gto) with
      | .ok (failure, after) => (.ok failure, after)
      | .error thrown => (.error thrown, state)

end GeneratedDb

/-! ### Effects -/

open AList

variable {sender : AccountName} {senderId : Nat} {gtx : GeneratedTransaction} {trx : Transaction}

variable {payer : AccountName} {replaceExisting : Bool}

namespace ChainDb

variable {context : ApplyContext} {db db' : ChainDb} {time : Nat} {key : AccountName × Nat}

/-- An object was removed, or one was created in the place of a key. -/
structure SetsGenerated (db db' : ChainDb) (key : AccountName × Nat)
    (entry : Option GeneratedTransaction) : Prop where
  same : db'.generatedTransactions.lookup key = entry
  other : ∀ key', key' ≠ key →
    db'.generatedTransactions.lookup key' = db.generatedTransactions.lookup key'
  fresh : ∀ gtx key' gtx', entry = some gtx → key' ≠ key →
    db.generatedTransactions.lookup key' = some gtx' → gtx'.trxId ≠ gtx.trxId

theorem addRamUsage_generated {account : AccountName} {delta : Int}
    (ran : db.addRamUsage account delta = .ok db') :
    db'.generatedTransactions = db.generatedTransactions := by
  obtain ⟨resourceLimits, -, ran⟩ := of_bind ran
  obtain rfl := Except.ok.inj ran
  rfl

theorem createGenerated_sets (ran : db.createGenerated sender senderId gtx = .ok db') :
    SetsGenerated db db' (sender, senderId) (some gtx) := by
  obtain ⟨_, isFresh, ran⟩ := of_bind ran
  obtain ⟨created, isCreated, ran⟩ := of_bind ran
  obtain ⟨-, rfl⟩ := Database.create_eq_ok.mp isCreated
  obtain rfl := Except.ok.inj ran
  refine ⟨lookup_insert _, fun key' differs => lookup_insert_ne differs, ?_⟩
  rintro _ key' gtx' ⟨rfl⟩ - found
  exact eosAssert_eq_ok.mp isFresh ⟨key', gtx'⟩ (mem_lookup_iff.mp found)

/-- The table that a replaced object leaves, with the one that takes its place. -/
theorem SetsGenerated.replace {replaced : ChainDb}
    (erased : replaced.generatedTransactions = db.generatedTransactions.erase key)
    (sets : SetsGenerated replaced db' key (some gtx)) : SetsGenerated db db' key (some gtx) := by
  have lookup : ∀ key', key' ≠ key →
      replaced.generatedTransactions.lookup key' = db.generatedTransactions.lookup key' := by
    intro key' differs
    rw [erased, lookup_erase_ne differs]
  refine ⟨sets.same, fun key' differs => (sets.other key' differs).trans (lookup key' differs), ?_⟩
  intro gtx key' gtx' isEntry differs found
  exact sets.fresh gtx key' gtx' isEntry differs ((lookup key' differs).trans found)

theorem SetsGenerated.congr_right {entry : Option GeneratedTransaction} {db'' : ChainDb}
    (sets : SetsGenerated db db' key entry)
    (same : db''.generatedTransactions = db'.generatedTransactions) :
    SetsGenerated db db'' key entry := by
  refine ⟨?_, ?_, sets.fresh⟩
  · rw [same]
    exact sets.same
  · rw [same]
    exact sets.other

theorem refundReplaced_generated {replaced : GeneratedTransaction}
    (ran : db.refundReplaced context replaced = .ok db') :
    db'.generatedTransactions = db.generatedTransactions := by
  unfold refundReplaced at ran
  split_ifs at ran
  · exact addRamUsage_generated ran
  · obtain rfl := Except.ok.inj ran
    rfl

theorem storeDeferred_sets
    (ran : db.storeDeferred context senderId payer trx replaceExisting = .ok db') :
    ∃ gtx, gtx.published = context.control.pendingBlockTime ∧
      SetsGenerated db db' (context.receiver, senderId) (some gtx) := by
  unfold storeDeferred at ran
  cases found : db.generatedTransactions.lookup (context.receiver, senderId) with
  | none =>
    rw [found] at ran
    exact ⟨_, rfl, createGenerated_sets ran⟩
  | some replaced =>
    rw [found] at ran
    obtain ⟨_, -, ran⟩ := of_bind ran
    obtain ⟨_, -, ran⟩ := of_bind ran
    obtain ⟨refunded, isRefunded, ran⟩ := of_bind ran
    have sets := createGenerated_sets ran
    refine ⟨_, rfl, SetsGenerated.replace ?_ sets⟩
    rw [← refundReplaced_generated isRefunded]

theorem scheduleDeferredTransaction_sets
    (ran : db.scheduleDeferredTransaction context senderId payer trx replaceExisting = .ok db') :
    ∃ gtx, gtx.published = context.control.pendingBlockTime ∧
      SetsGenerated db db' (context.receiver, senderId) (some gtx) := by
  obtain ⟨checked, -, ran⟩ := of_bind ran
  obtain ⟨stored, isStored, ran⟩ := of_bind ran
  obtain ⟨_, -, ran⟩ := of_bind ran
  obtain ⟨gtx, published, sets⟩ := storeDeferred_sets isStored
  exact ⟨gtx, published, sets.congr_right (addRamUsage_generated ran)⟩

theorem scheduleTransaction_sets {host : Host} {control : Control} {id : TransactionId}
    {delaySec : Nat} (ran : db.scheduleTransaction host control id delaySec trx = .ok db') :
    ∃ gtx, gtx.published = control.pendingBlockTime ∧
      SetsGenerated db db' (0, transactionIdToSenderId id) (some gtx) := by
  obtain ⟨_, -, ran⟩ := of_bind ran
  obtain ⟨stored, isStored, ran⟩ := of_bind ran
  exact ⟨_, rfl, (createGenerated_sets isStored).congr_right (addRamUsage_generated ran)⟩

theorem SetsGenerated.of_erase
    (erased : db'.generatedTransactions = db.generatedTransactions.erase key) :
    SetsGenerated db db' key none := by
  refine ⟨?_, ?_, fun _ _ _ isSome => by cases isSome⟩
  · rw [erased]
    exact lookup_erase _ _
  · intro key' differs
    rw [erased, lookup_erase_ne differs]

theorem cancelDeferredTransaction_sets {cancelled : Bool}
    (ran : db.cancelDeferredTransaction senderId sender = .ok (cancelled, db')) :
    SetsGenerated db db' (sender, senderId) none := by
  unfold cancelDeferredTransaction at ran
  cases found : db.generatedTransactions.lookup (sender, senderId) with
  | none =>
    rw [found] at ran
    obtain ⟨-, rfl⟩ := Prod.mk.inj (Except.ok.inj ran)
    exact ⟨found, fun _ _ => rfl, fun _ _ _ isSome => by cases isSome⟩
  | some gto =>
    rw [found] at ran
    obtain ⟨refunded, isRefunded, ran⟩ := of_bind ran
    obtain ⟨-, rfl⟩ := Prod.mk.inj (Except.ok.inj ran)
    refine SetsGenerated.of_erase ?_
    rw [← addRamUsage_generated isRefunded]

theorem removeScheduledTransaction_sets
    (ran : db.removeScheduledTransaction sender senderId = .ok db') :
    SetsGenerated db db' (sender, senderId) none := by
  obtain ⟨gto, -, ran⟩ := of_bind ran
  obtain ⟨resourceLimits, -, ran⟩ := of_bind ran
  obtain rfl := Except.ok.inj ran
  exact SetsGenerated.of_erase rfl

end ChainDb

namespace GeneratedDb

variable {control : Control} {state state' state'' : GeneratedDb} {time : Nat}

theorem mem_objects {gto : GeneratedTransactionObject} :
    gto ∈ state.objects ↔
      state.db.generatedTransactions.lookup (gto.sender, gto.senderId) =
        some gto.toGeneratedTransaction ∧
      state.ids (gto.sender, gto.senderId) = gto.id := by
  unfold objects
  rw [List.mem_map]
  constructor
  · rintro ⟨⟨⟨sender, senderId⟩, gtx⟩, member, rfl⟩
    exact ⟨mem_lookup_iff.mpr member, rfl⟩
  · rintro ⟨found, isId⟩
    refine ⟨⟨(gto.sender, gto.senderId), gto.toGeneratedTransaction⟩, mem_lookup_iff.mp found, ?_⟩
    rw [isId]

/-- The unique indices of the table, and the counter of ids. -/
structure Unique (state : GeneratedDb) : Prop where
  byId : ∀ {gto other}, gto ∈ state.objects → other ∈ state.objects → gto.id = other.id → gto = other
  byTrxId : ∀ {gto other}, gto ∈ state.objects → other ∈ state.objects →
    gto.trxId = other.trxId → gto = other
  below : ∀ gto ∈ state.objects, gto.id < state.nextId

/-- Objects are removed, and those that are created are published at the given time. -/
structure Evolves (time : Nat) (state state' : GeneratedDb) : Prop where
  unique : state.Unique → state'.Unique
  old : ∀ gto ∈ state'.objects, gto ∈ state.objects ∨ gto.published = time

theorem Evolves.refl (time : Nat) (state : GeneratedDb) : Evolves time state state :=
  ⟨id, fun _ => .inl⟩

theorem Evolves.trans (first : Evolves time state state') (second : Evolves time state' state'') :
    Evolves time state state'' := by
  refine ⟨second.unique ∘ first.unique, fun gto member => ?_⟩
  rcases second.old gto member with old | created
  · exact first.old gto old
  · exact .inr created

/-! ### Calls -/

section

variable {db : ChainDb} {key : AccountName × Nat}
  (sets : ChainDb.SetsGenerated state.db db key none)

include sets

theorem mem_objects_of_removed {gto : GeneratedTransactionObject}
    (member : gto ∈ ({ state with db } : GeneratedDb).objects) : gto ∈ state.objects := by
  obtain ⟨found, isId⟩ := mem_objects.mp member
  refine mem_objects.mpr ⟨?_, isId⟩
  rw [← sets.other _ ?_]
  · exact found
  · intro isKey
    rw [isKey] at found
    cases sets.same.symm.trans found

theorem evolves_of_removed : Evolves time state { state with db } := by
  refine ⟨fun unique => ⟨?_, ?_, ?_⟩, fun gto member => .inl (mem_objects_of_removed sets member)⟩
  · intro gto other member otherMember
    exact unique.byId (mem_objects_of_removed sets member) (mem_objects_of_removed sets otherMember)
  · intro gto other member otherMember
    exact unique.byTrxId (mem_objects_of_removed sets member)
      (mem_objects_of_removed sets otherMember)
  · intro gto member
    exact unique.below gto (mem_objects_of_removed sets member)

end

section

variable {db : ChainDb} {key : AccountName × Nat}
  (sets : ChainDb.SetsGenerated state.db db key (some gtx))

include sets

/-- An object is an old one, or the one that was created, which has the next id. -/
theorem mem_objects_created {gto : GeneratedTransactionObject}
    (member : gto ∈ (state.created db key).objects) :
    (gto ∈ state.objects ∧ gto.trxId ≠ gtx.trxId) ∨
      gto = { gtx with id := state.nextId, sender := key.1, senderId := key.2 } := by
  obtain ⟨found, isId⟩ := mem_objects.mp member
  change db.generatedTransactions.lookup _ = _ at found
  change Function.update state.ids key state.nextId _ = _ at isId
  by_cases isKey : (gto.sender, gto.senderId) = key
  · subst isKey
    rw [Function.update_self] at isId
    rw [sets.same] at found
    right
    rw [Option.some.inj found, isId]
  · rw [Function.update_of_ne isKey] at isId
    rw [sets.other _ isKey] at found
    exact .inl ⟨mem_objects.mpr ⟨found, isId⟩, sets.fresh gtx _ _ rfl isKey found⟩

theorem evolves_of_created (published : gtx.published = time) :
    Evolves time state (state.created db key) := by
  refine ⟨fun unique => ⟨?_, ?_, ?_⟩, fun gto member => ?_⟩
  · intro gto other member otherMember same
    rcases mem_objects_created sets member with ⟨old, -⟩ | rfl <;>
      rcases mem_objects_created sets otherMember with ⟨otherOld, -⟩ | rfl
    · exact unique.byId old otherOld same
    · exact absurd same (unique.below gto old).ne
    · exact absurd same.symm (unique.below other otherOld).ne
    · rfl
  · intro gto other member otherMember same
    rcases mem_objects_created sets member with ⟨old, differs⟩ | rfl <;>
      rcases mem_objects_created sets otherMember with ⟨otherOld, otherDiffers⟩ | rfl
    · exact unique.byTrxId old otherOld same
    · exact absurd same differs
    · exact absurd same.symm otherDiffers
    · rfl
  · intro gto member
    rcases mem_objects_created sets member with ⟨old, -⟩ | rfl
    · exact (unique.below gto old).trans (Nat.lt_succ_self _)
    · exact Nat.lt_succ_self _
  · rcases mem_objects_created sets member with ⟨old, -⟩ | rfl
    · exact .inl old
    · exact .inr published

end

theorem call_evolves {call : DeferredCall} (ran : state.call control call = .ok state') :
    Evolves control.pendingBlockTime state state' := by
  cases call with
  | schedule =>
    obtain ⟨db, scheduled, ran⟩ := of_bind ran
    obtain rfl := Except.ok.inj ran
    obtain ⟨gtx, published, sets⟩ := ChainDb.scheduleDeferredTransaction_sets scheduled
    exact evolves_of_created sets published
  | cancel =>
    obtain ⟨⟨cancelled, db⟩, isCancelled, ran⟩ := of_bind ran
    obtain rfl := Except.ok.inj ran
    exact evolves_of_removed (ChainDb.cancelDeferredTransaction_sets isCancelled)
  | delay =>
    obtain ⟨db, scheduled, ran⟩ := of_bind ran
    obtain rfl := Except.ok.inj ran
    obtain ⟨gtx, published, sets⟩ := ChainDb.scheduleTransaction_sets scheduled
    exact evolves_of_created sets published
  | other =>
    obtain ⟨db, -, ran⟩ := of_bind ran
    obtain rfl := Except.ok.inj ran
    exact ⟨fun unique => ⟨unique.byId, unique.byTrxId, unique.below⟩, fun gto member => .inl member⟩

theorem run_evolves {calls : List DeferredCall} (ran : state.run control calls = .ok state') :
    Evolves control.pendingBlockTime state state' := by
  unfold run at ran
  induction calls generalizing state with
  | nil =>
    obtain rfl := Except.ok.inj ran
    exact .refl _ _
  | cons call calls ih =>
    rw [List.foldlM_cons] at ran
    obtain ⟨next, called, ran⟩ := of_bind ran
    exact (call_evolves called).trans (ih ran)

/-! ### Retirements -/

section Retirements

variable {before : GeneratedDb} {script : RetireScript} {gto : GeneratedTransactionObject}
  {failure : ChainException} {outcome : Option ChainException}

/-- A failure ends with the session undone, or with what was billed. -/
theorem fail_evolves (ran : state.fail control before script failure = .ok (outcome, state')) :
    state' = before ∨ Evolves control.pendingBlockTime state state' := by
  unfold fail at ran
  split_ifs at ran
  · obtain ⟨_, -, ran⟩ := of_bind ran
    obtain ⟨-, rfl⟩ := Prod.mk.inj (Except.ok.inj ran)
    exact .inl rfl
  · obtain ⟨billed, isBilled, ran⟩ := of_bind ran
    obtain ⟨_, -, ran⟩ := of_bind ran
    obtain ⟨-, rfl⟩ := Prod.mk.inj (Except.ok.inj ran)
    exact .inr (run_evolves isBilled)

theorem handleFailure_evolves
    (ran : state.handleFailure control before script gto failure = .ok (outcome, state')) :
    state' = before ∨ Evolves control.pendingBlockTime state state' := by
  unfold handleFailure at ran
  split_ifs at ran
  · cases handled : state.run control script.onerror with
    | ok next =>
      rw [handled] at ran
      obtain ⟨_, -, ran⟩ := of_bind ran
      obtain ⟨-, rfl⟩ := Prod.mk.inj (Except.ok.inj ran)
      exact .inr (run_evolves handled)
    | error thrown =>
      rw [handled] at ran
      dsimp only at ran
      split_ifs at ran
      exact fail_evolves ran
  · exact fail_evolves ran

theorem retire_evolves (ran : state.retire control script gto = .ok (outcome, state')) :
    Evolves control.pendingBlockTime state state' := by
  unfold retire at ran
  obtain ⟨db, isRemoved, ran⟩ := of_bind ran
  have removed : Evolves control.pendingBlockTime state { state with db } :=
    evolves_of_removed (ChainDb.removeScheduledTransaction_sets isRemoved)
  obtain ⟨_, -, ran⟩ := of_bind ran
  obtain ⟨_, -, ran⟩ := of_bind ran
  split_ifs at ran
  · obtain ⟨expired, isExpired, ran⟩ := of_bind ran
    obtain ⟨-, rfl⟩ := Prod.mk.inj (Except.ok.inj ran)
    exact removed.trans (run_evolves isExpired)
  · cases executed : ({ state with db } : GeneratedDb).run control script.transaction with
    | ok next =>
      rw [executed] at ran
      obtain ⟨-, rfl⟩ := Prod.mk.inj (Except.ok.inj ran)
      exact removed.trans (run_evolves executed)
    | error failure =>
      rw [executed] at ran
      dsimp only at ran
      split_ifs at ran
      rcases handleFailure_evolves ran with rfl | evolves
      · exact .refl _ _
      · exact removed.trans evolves

theorem pushScheduledTransaction_evolves (state : GeneratedDb) (script : RetireScript)
    (trxId : TransactionId) :
    Evolves control.pendingBlockTime state
      (state.pushScheduledTransaction control script trxId).2 := by
  unfold pushScheduledTransaction
  split
  · exact .refl _ _
  · split
    · exact .refl _ _
    · split
      · rename_i retired
        exact retire_evolves (captureAndRethrow_eq_ok.mp retired)
      · exact .refl _ _

end Retirements

end GeneratedDb

end CodexRelay.Chain
