import CodexRelay.Library.OrderStatistic
import CodexRelay.Chain.Database
import CodexRelay.Chain.HeaderState.Production

/-!
Contract: how input transactions are kept from being executed twice.

Owns:
- the table of `transaction_object`, `record_transaction` and
  `clear_expired_input_transactions`;
- `validate_expiration`, `init_for_input_trx`, and the parts of `start_block`, `push_transaction`
  and `commit_block` that concern them;
- that a branch holds no input transaction twice as long as its blocks come one after another
  in time.

Does not own: what else a transaction is checked for, and what it does. Neither touches the
table.

A transaction is purged once a block is later than its expiration, and admitted only to blocks
that are not. The slot of a block is a `uint32_t`, and `next` increments it without a check when
no time is given, so that the block after the last slot is the earliest of all.
-/

namespace CodexRelay.Chain

open Library PendingBlockHeaderState

variable {head : BlockHeaderState} {slot confirmBlockCount : Nat}
  {pending : PendingBlockHeaderState} {checks : TransactionChecks}

/-! ### The table -/

/-- `transaction_object`; the expiration is in seconds. -/
structure TransactionObject where
  trxId : TransactionId
  expiration : Nat

/-- `time_point( time_point_sec )`. -/
def secondsTime (seconds : Nat) : Nat := seconds * 1000000

namespace TransactionObject

def precedes (first second : Sigma fun _ : Nat => TransactionObject) : Prop :=
  first.2.expiration < second.2.expiration ∨
    first.2.expiration = second.2.expiration ∧ first.1 < second.1

instance : DecidableRel precedes := fun _ _ => inferInstanceAs (Decidable (_ ∨ _))

def clearExpiredLoop (now : Nat) : (fuel : Nat) → IdTable TransactionObject → IdTable TransactionObject
  | 0, table => table
  | fuel + 1, table =>
    match firstBy precedes table.rows.entries with
    | none => table
    | some oldest =>
      if secondsTime oldest.2.expiration < now then
        clearExpiredLoop now fuel (table.remove oldest.1)
      else table

/-- `clear_expired_input_transactions`, which removes a row in each turn. -/
def clearExpiredInputTransactions (now : Nat) (table : IdTable TransactionObject) :
    IdTable TransactionObject :=
  clearExpiredLoop now table.rows.entries.length table

/-- `record_transaction`: whatever `create` throws means a duplicate. -/
def recordTransaction (table : IdTable TransactionObject) (id : TransactionId) (expire : Nat) :
    Checked (IdTable TransactionObject) :=
  match table.create trxId ⟨id, expire⟩ with
  | .ok (_, table) => .ok table
  | .error _ => .error ⟨.txDuplicate, "duplicate transaction ${id}"⟩

end TransactionObject

/-! ### Admission -/

structure TransactionChecks where
  isProducingBlock : Bool
  maxTransactionLifetime : Nat
  validateTapos : Checked Unit
  validateReferencedAccounts : Checked Unit
  /-- `transaction_context::init` -/
  init : Checked Unit
  /-- the authorization, `exec` and `finalize` -/
  exec : Checked Unit

def validateExpiration (pendingBlockTime maxTransactionLifetime : Nat) (trx : Transaction) :
    Checked Unit := do
  eosAssert (pendingBlockTime ≤ secondsTime trx.expiration) .expiredTxException
    "transaction has expired, expiration is ${trx.expiration} and pending block time is ${pending_block_time}"
  eosAssert (secondsTime trx.expiration ≤ pendingBlockTime + secondsTime maxTransactionLifetime)
    .txExpTooFarException
    "Transaction expiration is too far in the future relative to the reference time of ${reference_time}, expiration is ${trx.expiration} and the maximum transaction lifetime is ${max_til_exp} seconds"

/-- The check of `init_for_input_trx` for extensions. -/
def checkInputExtensions (checks : TransactionChecks) (trx : Transaction) : Checked Unit :=
  if trx.transactionExtensions = [] then .ok ()
  else .error ⟨if checks.isProducingBlock then .subjectiveBlockProductionException
    else .disallowedTransactionExtensionsBadBlockException,
    "no transaction extensions supported yet for input transactions"⟩

def initForInputTrx (checks : TransactionChecks) (skipTrxChecks skipRecording : Bool)
    (pendingBlockTime : Nat) (table : IdTable TransactionObject) (id : TransactionId)
    (trx : Transaction) : Checked (IdTable TransactionObject) := do
  checkInputExtensions checks trx
  (if skipTrxChecks then .ok ()
  else do
    validateExpiration pendingBlockTime checks.maxTransactionLifetime trx
    checks.validateTapos
    checks.validateReferencedAccounts)
  checks.init
  (if skipRecording then .ok table else TransactionObject.recordTransaction table id trx.expiration)

/-! ### Blocks -/

/-- The head, the pending block and the table. The input transactions of the branch that were
executed or scheduled are kept for the record, newest first. -/
structure InputState where
  head : BlockHeaderState
  pending : Option PendingBlockHeaderState := none
  transactions : IdTable TransactionObject := .empty
  inputs : List Transaction := []

namespace InputState

/-- `push_transaction` of an input transaction that does not throw, with all checks. -/
def pushTransaction (transactionId : Transaction → TransactionId) (checks : TransactionChecks)
    (s : InputState) (trx : Transaction) : Checked InputState :=
  match s.pending with
  | none => .error ⟨.fault, "push_transaction without a pending block"⟩
  | some pending => do
      let transactions ← initForInputTrx checks false false (slotTime pending.timestamp)
        s.transactions (transactionId trx) trx
      checks.exec
      return { s with transactions, inputs := trx :: s.inputs }

/-- `start_block`; a speculative block leaves the tables alone unless `modifies`. -/
def startBlock (fc : Primitives) (s : InputState) (slot confirmBlockCount : Nat) (modifies : Bool) :
    Checked InputState := do
  eosAssert s.pending.isNone .blockValidateException "pending block already exists"
  let pending ← s.head.next fc slot confirmBlockCount
  return { s with
    pending := some pending
    transactions :=
      if modifies then
        TransactionObject.clearExpiredInputTransactions (slotTime pending.timestamp) s.transactions
      else s.transactions }

/-- What happens to a branch outside of undo sessions; a block may begin at a slot that is
`allowed` after the head. -/
inductive Step (fc : Primitives) (transactionId : Transaction → TransactionId)
    (allowed : BlockHeaderState → Nat → Prop) : InputState → InputState → Prop where
  | startBlock {s s' : InputState} (slot confirmBlockCount : Nat) (modifies : Bool)
      (permitted : allowed s.head slot)
      (ran : s.startBlock fc slot confirmBlockCount modifies = .ok s') :
      Step fc transactionId allowed s s'
  | pushTransaction {s s' : InputState} (checks : TransactionChecks) (trx : Transaction)
      (ran : s.pushTransaction transactionId checks trx = .ok s') :
      Step fc transactionId allowed s s'
  | commitReceived {s : InputState} {pending : PendingBlockHeaderState} {head : BlockHeaderState}
      (h : SignedBlockHeader) (validator : FeatureValidator) (skipValidateSignee : Bool)
      (building : s.pending = some pending)
      (finished : pending.finishNext fc h validator skipValidateSignee = .ok head) :
      Step fc transactionId allowed s { s with head, pending := none }
  | commitProduced {s : InputState} {pending : PendingBlockHeaderState} {head : BlockHeaderState}
      (h : SignedBlockHeader) (validator : FeatureValidator) (signer : Digest → Signature)
      (building : s.pending = some pending)
      (finished : pending.finishNextSigned fc h validator signer = .ok head) :
      Step fc transactionId allowed s { s with head, pending := none }

/-- No transaction was executed or scheduled twice. -/
def NoReplay (transactionId : Transaction → TransactionId) (s : InputState) : Prop :=
  (s.inputs.map transactionId).Nodup

instance (transactionId : Transaction → TransactionId) (s : InputState) :
    Decidable (s.NoReplay transactionId) :=
  inferInstanceAs (Decidable (List.Nodup _))

/-- The slot of the next block does not wrap around. -/
def Timely (head : BlockHeaderState) (slot : Nat) : Prop :=
  slot ≠ 0 ∨ head.header.timestamp + 1 < 2 ^ 32

section Table

variable {table table' : IdTable TransactionObject} {now id : Nat} {row : TransactionObject}

theorem clearExpiredLoop_find (fuel : Nat) (found : table.find id = some row)
    (live : now ≤ secondsTime row.expiration) :
    (TransactionObject.clearExpiredLoop now fuel table).find id = some row := by
  induction fuel generalizing table with
  | zero => exact found
  | succ fuel ih =>
    unfold TransactionObject.clearExpiredLoop
    split
    · exact found
    · rename_i oldest first
      split_ifs with expired
      · apply ih
        have different : id ≠ oldest.1 := by
          rintro rfl
          have stored : table.find oldest.1 = some oldest.2 :=
            AList.mem_lookup_iff.mpr (firstBy_mem first)
          obtain rfl := Option.some.inj (found.symm.trans stored)
          omega
        rw [IdTable.find, IdTable.remove, AList.lookup_erase_ne different]
        exact found
      · exact found

theorem recordTransaction_eq_ok {trxId : TransactionId} {expire : Nat}
    (recorded : TransactionObject.recordTransaction table trxId expire = .ok table') :
    ∃ id, table.create TransactionObject.trxId ⟨trxId, expire⟩ = .ok (id, table') := by
  unfold TransactionObject.recordTransaction at recorded
  cases created : table.create TransactionObject.trxId ⟨trxId, expire⟩ with
  | error thrown =>
    rw [created] at recorded
    cases recorded
  | ok result =>
    rw [created] at recorded
    obtain rfl := Except.ok.inj recorded
    exact ⟨result.1, rfl⟩

end Table

/-! ### Time -/

/-- The time that admission goes by: that of the pending block, or of the head. -/
def time (s : InputState) : Nat :=
  slotTime ((s.pending.map (·.timestamp)).getD s.head.header.timestamp)

theorem slotTime_lt {first second : Nat} (before : first < second) :
    slotTime first < slotTime second := by
  unfold slotTime blockIntervalMs
  omega

variable {fc : Primitives} {transactionId : Transaction → TransactionId} {s s' : InputState}

theorem next_timestamp (opened : head.next fc slot confirmBlockCount = .ok pending)
    (timely : Timely head slot) : head.header.timestamp < pending.timestamp := by
  unfold BlockHeaderState.next at opened
  obtain ⟨chosen, slotted, opened⟩ := of_bind opened
  obtain ⟨prokey, -, opened⟩ := of_bind opened
  obtain ⟨_, -, opened⟩ := of_bind opened
  obtain rfl := Except.ok.inj opened
  change head.header.timestamp < chosen
  unfold BlockHeaderState.nextSlot at slotted
  split_ifs at slotted with given
  · obtain ⟨_, future, slotted⟩ := of_bind slotted
    obtain rfl := Except.ok.inj slotted
    exact eosAssert_eq_ok.mp future
  · obtain rfl := Except.ok.inj slotted
    have bound := timely.resolve_left given
    rw [Nat.mod_eq_of_lt bound]
    exact Nat.lt_succ_self _

theorem finishNextCore_timestamp {h : SignedBlockHeader} {validator : FeatureValidator}
    (finished : pending.finishNextCore fc h validator = .ok head) :
    head.header.timestamp = pending.timestamp := by
  obtain ⟨checked, rfl, -⟩ := finishNextCore_eq_ok finished
  unfold checkHeader at checked
  obtain ⟨_, same, -⟩ := of_bind checked
  exact eosAssert_eq_ok.mp same

/-! ### The invariant -/

/-- Every input transaction is in the table or too old to be admitted again. -/
structure Guarded (transactionId : Transaction → TransactionId) (s : InputState) : Prop where
  noReplay : s.NoReplay transactionId
  remembered : ∀ trx ∈ s.inputs,
    (∃ id, s.transactions.find id = some ⟨transactionId trx, trx.expiration⟩) ∨
      secondsTime trx.expiration < s.time

section

variable (guarded : s.Guarded transactionId)

include guarded

theorem Guarded.of_time (inputs : s'.inputs = s.inputs)
    (transactions : s'.transactions = s.transactions) (time : s.time ≤ s'.time) :
    s'.Guarded transactionId := by
  refine ⟨?_, fun trx member => ?_⟩
  · rw [NoReplay, inputs]
    exact guarded.noReplay
  · rw [inputs] at member
    rw [transactions]
    exact (guarded.remembered trx member).imp_right fun old => lt_of_lt_of_le old time

theorem Guarded.startBlock {modifies : Bool} (timely : Timely s.head slot)
    (ran : s.startBlock fc slot confirmBlockCount modifies = .ok s') :
    s'.Guarded transactionId := by
  unfold InputState.startBlock at ran
  obtain ⟨_, idle, ran⟩ := of_bind ran
  obtain ⟨pending, opened, ran⟩ := of_bind ran
  obtain rfl := Except.ok.inj ran
  have noPending : s.pending = none := Option.isNone_iff_eq_none.mp (eosAssert_eq_ok.mp idle)
  have later : s.time < slotTime pending.timestamp := by
    rw [time, noPending]
    exact slotTime_lt (next_timestamp opened timely)
  refine ⟨guarded.noReplay, fun trx member => ?_⟩
  change _ ∨ secondsTime trx.expiration < slotTime pending.timestamp
  by_cases live : slotTime pending.timestamp ≤ secondsTime trx.expiration
  · obtain ⟨id, found⟩ | old := guarded.remembered trx member
    · left
      refine ⟨id, ?_⟩
      dsimp only
      split_ifs
      · exact clearExpiredLoop_find _ found live
      · exact found
    · omega
  · right
    omega

/-- The heart of the argument: a transaction with the id of an earlier one is in the table
still, or has expired. -/
theorem Guarded.pushTransaction
    (sameExpiration : ∀ first second, transactionId first = transactionId second →
      first.expiration = second.expiration)
    {trx : Transaction} (ran : s.pushTransaction transactionId checks trx = .ok s')
    : s'.Guarded transactionId := by
  unfold InputState.pushTransaction at ran
  cases building : s.pending with
  | none =>
    rw [building] at ran
    cases ran
  | some pending =>
    rw [building] at ran
    obtain ⟨table, admitted, ran⟩ := of_bind ran
    obtain ⟨_, -, ran⟩ := of_bind ran
    obtain rfl := Except.ok.inj ran
    unfold initForInputTrx at admitted
    obtain ⟨_, -, admitted⟩ := of_bind admitted
    obtain ⟨_, checked, admitted⟩ := of_bind admitted
    obtain ⟨_, -, recorded⟩ := of_bind admitted
    obtain ⟨_, unexpired, -⟩ := of_bind checked
    obtain ⟨_, unexpired, -⟩ := of_bind unexpired
    have live : s.time ≤ secondsTime trx.expiration := by
      rw [time, building]
      exact eosAssert_eq_ok.mp unexpired
    obtain ⟨id, created⟩ := recordTransaction_eq_ok recorded
    obtain ⟨fresh, -, rows, -⟩ := IdTable.create_eq_ok.mp created
    refine ⟨List.nodup_cons.mpr ⟨fun repeated => ?_, guarded.noReplay⟩, fun other member => ?_⟩
    · obtain ⟨earlier, member, sameId⟩ := List.mem_map.mp repeated
      obtain ⟨stored, found⟩ | old := guarded.remembered earlier member
      · refine IdTable.findBy_ne_none found ?_ fresh
        exact sameId
      · rw [sameExpiration earlier trx sameId] at old
        omega
    · obtain rfl | member := List.mem_cons.mp member
      · left
        exact ⟨s.transactions.nextId, by rw [IdTable.find, rows, AList.lookup_insert]⟩
      · obtain ⟨stored, found⟩ | old := guarded.remembered other member
        · left
          refine ⟨stored, ?_⟩
          rw [IdTable.find, rows, AList.lookup_insert_ne (IdTable.find_lt_nextId found).ne]
          exact found
        · rw [time, building] at old
          exact .inr old

theorem Guarded.commit {pending : PendingBlockHeaderState} {head : BlockHeaderState}
    (building : s.pending = some pending) (sameTime : head.header.timestamp = pending.timestamp) :
    Guarded transactionId { s with head, pending := none } := by
  have same : time { s with head, pending := none } = s.time := by
    simp only [time, building, Option.map_none, Option.getD_none, Option.map_some, Option.getD_some,
      sameTime]
  exact guarded.of_time rfl rfl same.ge

theorem Guarded.step
    (sameExpiration : ∀ first second, transactionId first = transactionId second →
      first.expiration = second.expiration)
    (taken : Step fc transactionId Timely s s') : s'.Guarded transactionId := by
  cases taken with
  | startBlock slot confirmBlockCount modifies timely ran => exact guarded.startBlock timely ran
  | pushTransaction checks trx ran => exact guarded.pushTransaction sameExpiration ran
  | commitReceived h validator skipValidateSignee building finished =>
    exact guarded.commit building (finishNextCore_timestamp (finishNext_eq_ok finished))
  | commitProduced h validator signer building finished =>
    obtain ⟨unsigned, signature, core, rfl⟩ := finishNextSigned_eq_ok finished
    have sameTime := finishNextCore_timestamp core
    exact guarded.commit building sameTime

end

/-- In every run, with fork switches and failed transactions as undone sessions, no branch
executes an input transaction twice, provided that no block begins at a slot that wrapped
around. -/
theorem noReplay_of_run {start : InputState} (fresh : start.inputs = [])
    (sameExpiration : ∀ first second, transactionId first = transactionId second →
      first.expiration = second.expiration)
    {visited : List (InputState × List InputState)} {saved : List InputState}
    (run : Run (SessionStep (Step fc transactionId Timely)) (start, []) visited (s, saved)) :
    s.NoReplay transactionId := by
  obtain ⟨earlier, reached⟩ := SessionStep.reached run s (List.mem_cons_self ..)
  have initial : start.Guarded transactionId := by
    refine ⟨?_, ?_⟩ <;> simp [NoReplay, fresh]
  have guarded : s.Guarded transactionId := by
    clear run
    induction reached with
    | refl => exact initial
    | snoc _ taken ih => exact ih.step sameExpiration taken
  exact guarded.noReplay

/-- A transaction that may be executed during the first ten seconds of time. -/
def earlyTransaction : Transaction where
  expiration := 946684810

/-- No other check objects. `init` asserts that an account is used at a later slot than before, so
that the slots at which a transaction is executed have to rise. -/
def noObjection : TransactionChecks where
  isProducingBlock := false
  maxTransactionLifetime := 3600
  validateTapos := .ok ()
  validateReferencedAccounts := .ok ()
  init := .ok ()
  exec := .ok ()

/-- The chain of the sole producer before its first block. -/
def sampleStart : InputState where
  head := signedGenesis.headerState selfSigning

def commitSample (s : InputState) : Checked InputState :=
  match s.pending with
  | none => .error ⟨.fault, "commit_block without a pending block"⟩
  | some pending => do
      let head ← pending.finishNextSigned selfSigning (pending.makeBlockHeader selfSigning 0 0 none [])
        (fun _ _ _ => .ok ()) (fun _ => 5)
      return { s with head, pending := none }

def sampleBlock (s : InputState) (slot : Nat) (trxs : List Transaction) : Checked InputState := do
  let s ← s.startBlock selfSigning slot 0 true
  let s ← trxs.foldlM (pushTransaction (·.expiration) noObjection) s
  s.commitSample

section Sample

variable {allowed : BlockHeaderState → Nat → Prop} {start : InputState × List InputState}
  {visited : List (InputState × List InputState)} {trxs : List Transaction}

theorem run_of_pushes
    (run : Run (SessionStep (Step fc transactionId allowed)) start visited (s, []))
    (ran : trxs.foldlM (pushTransaction transactionId checks) s = .ok s') :
    ∃ visited, Run (SessionStep (Step fc transactionId allowed)) start visited (s', []) := by
  induction trxs generalizing s visited with
  | nil =>
    obtain rfl := Except.ok.inj ran
    exact ⟨visited, run⟩
  | cons trx trxs ih =>
    rw [List.foldlM_cons] at ran
    obtain ⟨pushed, ranPush, ran⟩ := of_bind ran
    exact ih (run.snoc (.work (.pushTransaction checks trx ranPush))) ran

theorem run_of_sampleBlock (allowed : BlockHeaderState → Nat → Prop)
    (run : Run (SessionStep (Step selfSigning (·.expiration) allowed)) start visited (s, []))
    (permitted : allowed s.head slot) (ran : s.sampleBlock slot trxs = .ok s') :
    ∃ visited, Run (SessionStep (Step selfSigning (·.expiration) allowed)) start visited (s', []) := by
  unfold sampleBlock at ran
  obtain ⟨started, ranStart, ran⟩ := of_bind ran
  obtain ⟨pushed, ranPushes, ran⟩ := of_bind ran
  obtain ⟨visited, run⟩ := run_of_pushes
    (run.snoc (.work (.startBlock slot 0 true permitted ranStart))) ranPushes
  unfold commitSample at ran
  cases building : pushed.pending with
  | none =>
    rw [building] at ran
    cases ran
  | some pending =>
    rw [building] at ran
    obtain ⟨head, finished, ran⟩ := of_bind ran
    obtain rfl := Except.ok.inj ran
    exact ⟨_, run.snoc (.work (.commitProduced _ _ _ building finished))⟩

end Sample

theorem noReplay_of_first_block :
    ∃ s : InputState, s.inputs = [earlyTransaction] ∧ s.NoReplay (·.expiration) := by
  obtain ⟨s, ran, inputs⟩ : ∃ s, sampleStart.sampleBlock 2 [earlyTransaction] = .ok s ∧
      s.inputs = [earlyTransaction] := ⟨_, rfl, rfl⟩
  have permitted : Timely sampleStart.head 2 := .inl (by decide)
  obtain ⟨visited, run⟩ := run_of_sampleBlock Timely .refl permitted ran
  exact ⟨s, inputs, noReplay_of_run rfl (fun _ _ same => same) run⟩

/-- Block 3 is that of the last slot, and block 4 begins without a given time, at slot 0. Block 5
executes the transaction of block 2 again, one slot later than that did. -/
theorem replay_after_last_slot :
    ∃ s visited, Run (SessionStep (Step selfSigning (·.expiration) fun _ _ => True))
      (sampleStart, []) visited (s, []) ∧ ¬ s.NoReplay (·.expiration) := by
  obtain ⟨s, ran, replayed⟩ : ∃ s, (do
      let second ← sampleStart.sampleBlock 2 [earlyTransaction]
      let third ← second.sampleBlock (2 ^ 32 - 1) []
      let fourth ← third.sampleBlock 0 []
      fourth.sampleBlock 3 [earlyTransaction]) = .ok s ∧ ¬ s.NoReplay (·.expiration) :=
    ⟨_, rfl, by decide⟩
  obtain ⟨second, ranSecond, ran⟩ := of_bind ran
  obtain ⟨third, ranThird, ran⟩ := of_bind ran
  obtain ⟨fourth, ranFourth, ranFifth⟩ := of_bind ran
  obtain ⟨_, run⟩ := run_of_sampleBlock (fun _ _ => True) .refl trivial ranSecond
  obtain ⟨_, run⟩ := run_of_sampleBlock (fun _ _ => True) run trivial ranThird
  obtain ⟨_, run⟩ := run_of_sampleBlock (fun _ _ => True) run trivial ranFourth
  obtain ⟨visited, run⟩ := run_of_sampleBlock (fun _ _ => True) run trivial ranFifth
  exact ⟨s, visited, run, replayed⟩

end InputState

end CodexRelay.Chain
