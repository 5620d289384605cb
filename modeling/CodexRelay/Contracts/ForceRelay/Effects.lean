import CodexRelay.Contracts.ForceRelay.Model

/-!
Contract: what each action of `force.relay` does to the rows, for actions that do not abort.

Owns `Effect`, which lists the ways in which a call changes the record of its chain. The invariants
of the contract are proved by cases on it.
-/

namespace CodexRelay.Contracts.ForceRelay

open Chain List Eosiolib

variable {env : Environment}

variable {scope : Scope} {entry : UnconfirmBlock} {block other : BlockType} {transfer : AccountName}
  {deposit : Asset} {actions : List Action} {unconfirms result : List UnconfirmBlock}
  {actors : List AccountName} {chain : Name} {record : Record}

variable {outcome : Scope × List OnBlock}

/-! ### Blocks and entries -/

theorem Scope.mem_pending {relaystat : BlockRelayStat} (stat : scope.relaystat = some relaystat) :
    entry ∈ scope.pending ↔ entry ∈ relaystat.unconfirms ∧ relaystat.last.num < entry.base.num := by
  simp [Scope.pending, stat]

theorem BlockType.same_iff :
    block.same other = true ↔ block.id = other.id ∧ block.num = other.num ∧
      block.transactionMroot = other.transactionMroot ∧ block.actionMroot = other.actionMroot := by
  simp [BlockType.same]

theorem BlockType.num_of_same (same : block.same other = true) : block.num = other.num :=
  (same_iff.mp same).2.1

theorem BlockType.same_trans {middle : BlockType} (first : block.same middle = true)
    (second : middle.same other = true) : block.same other = true := by
  rw [same_iff] at *
  grind

theorem BlockType.same_symm (same : block.same other = true) : other.same block = true := by
  rw [same_iff] at *
  grind

/-! ### Commits -/

/-- What `commit` makes of the unconfirmed blocks. -/
inductive Recorded (transfer : AccountName) (deposit : Asset) (block : BlockType)
    (actions : List Action) : List UnconfirmBlock → List UnconfirmBlock → Prop where
  | joined (before after : List UnconfirmBlock) (entry : UnconfirmBlock) (newConfirm : Asset)
      (same : entry.base.same block = true) (absent : transfer ∉ entry.confirmeds)
      (added : newConfirm.amount = deposit.amount + entry.confirm.amount) :
      Recorded transfer deposit block actions (before ++ entry :: after)
        (before ++ { entry with
          confirm := newConfirm, confirmeds := entry.confirmeds ++ [transfer] } :: after)
  | opened (unconfirms result : List UnconfirmBlock)
      (different : ∀ entry ∈ unconfirms, ¬ entry.base.same block = true)
      (arranged : result.Perm (unconfirms ++
        [{ base := block, confirm := deposit, actions, confirmeds := [transfer] }])) :
      Recorded transfer deposit block actions unconfirms result

section

variable (recorded : Recorded transfer deposit block actions unconfirms result)

include recorded

theorem Recorded.mem (member : entry ∈ result) :
    entry ∈ unconfirms ∨
      entry = { base := block, confirm := deposit, actions, confirmeds := [transfer] } ∨
      ∃ old newConfirm, old ∈ unconfirms ∧ old.base.same block = true ∧
        transfer ∉ old.confirmeds ∧ newConfirm.amount = deposit.amount + old.confirm.amount ∧
        entry = { old with
          confirm := newConfirm, confirmeds := old.confirmeds ++ [transfer] } := by
  cases recorded with
  | joined before after old newConfirm same absent added =>
    rcases mem_append.mp member with earlier | later
    · exact .inl (mem_append_left _ earlier)
    · rcases mem_cons.mp later with rfl | later
      · exact .inr (.inr ⟨old, newConfirm, by simp, same, absent, added, rfl⟩)
      · exact .inl (mem_append_right _ (mem_cons_of_mem _ later))
  | opened _ _ different arranged =>
    rcases mem_append.mp (arranged.mem_iff.mp member) with earlier | fresh
    · exact .inl earlier
    · exact .inr (.inl (mem_singleton.mp fresh))

theorem Recorded.exists_mem (member : entry ∈ unconfirms) :
    ∃ kept ∈ result, kept.base = entry.base ∧ kept.actions = entry.actions := by
  cases recorded with
  | joined before after old newConfirm same absent added =>
    rcases mem_append.mp member with earlier | later
    · exact ⟨entry, mem_append_left _ earlier, rfl, rfl⟩
    · rcases mem_cons.mp later with rfl | later
      · exact ⟨_, mem_append_right _ mem_cons_self, rfl, rfl⟩
      · exact ⟨entry, mem_append_right _ (mem_cons_of_mem _ later), rfl, rfl⟩
  | opened _ _ different arranged =>
    exact ⟨entry, arranged.mem_iff.mpr (mem_append_left _ member), rfl, rfl⟩

/-- The block that was committed has an entry: one that was there, or a new one. -/
theorem Recorded.exists_same :
    ∃ entry ∈ result, entry.base.same block = true ∧
      ((∃ old ∈ unconfirms, old.base = entry.base ∧ old.actions = entry.actions) ∨
        entry.actions = actions) := by
  cases recorded with
  | joined before after old newConfirm same absent added =>
    exact ⟨_, mem_append_right _ mem_cons_self, same, .inl ⟨old, by simp, rfl, rfl⟩⟩
  | opened _ _ different arranged =>
    refine ⟨_, arranged.mem_iff.mpr (mem_append_right _ mem_cons_self), ?_, .inr rfl⟩
    exact BlockType.same_iff.mpr ⟨rfl, rfl, rfl, rfl⟩

end

theorem confirmFirst_of_find {newConfirm : Asset}
    (found : unconfirms.find? (·.base.same block) = some entry)
    (confirmed : confirmFirst block newConfirm transfer unconfirms = .ok result) :
    ∃ before after, unconfirms = before ++ entry :: after ∧ transfer ∉ entry.confirmeds ∧
      result = before ++ { entry with
        confirm := newConfirm, confirmeds := entry.confirmeds ++ [transfer] } :: after := by
  induction unconfirms generalizing result with
  | nil => cases found
  | cons first rest ih =>
    unfold confirmFirst at confirmed
    by_cases same : first.base.same block = true
    · rw [find?_cons, same] at found
      cases found
      rw [if_pos same, UnconfirmBlock.confirmBy, bind_assoc, eosioAssert_bind] at confirmed
      obtain ⟨absent, confirmed⟩ := confirmed
      cases confirmed
      exact ⟨[], rest, rfl, absent, rfl⟩
    · rw [find?_cons, Bool.eq_false_iff.mpr same] at found
      rw [if_neg same] at confirmed
      obtain ⟨tail, confirmedRest, returned⟩ := of_bind confirmed
      cases returned
      obtain ⟨before, after, rfl, absent, rfl⟩ := ih found confirmedRest
      exact ⟨first :: before, after, rfl, absent, rfl⟩

theorem recorded_of_recordCommit
    (ran : recordCommit env transfer deposit block actions unconfirms = .ok result) :
    Recorded transfer deposit block actions unconfirms result := by
  unfold recordCommit at ran
  cases found : unconfirms.find? (·.base.same block) with
  | none =>
    rw [found, Option.elim_none, newEntry, UnconfirmBlock.confirmBy, bind_assoc,
      eosioAssert_bind] at ran
    cases ran.2
    exact .opened _ _ (by simpa using find?_eq_none.mp found) (env.sort_perm _)
  | some entry =>
    rw [found, Option.elim_some] at ran
    obtain ⟨newConfirm, added, confirmed⟩ := of_bind ran
    obtain ⟨before, after, rfl, absent, rfl⟩ := confirmFirst_of_find found confirmed
    have same : entry.base.same block = true := by simpa using find?_some found
    exact .joined before after entry newConfirm same absent (by
      rw [eq_of_add added])

section

variable (ran : commit env actors chain transfer block actions scope = .ok outcome)

include ran

/-- What `commit` reads, and what it returns for a block that is not too old. -/
theorem commit_eq_ok :
    ∃ it channel relaystat, scope.transfers transfer = some it ∧ scope.channel = some channel ∧
      lt (env.coreAsset 0) channel.depositSum = .ok true ∧
      scope.relaystat = some relaystat ∧
      ((¬ relaystat.last.isNil ∧ block.num ≤ relaystat.last.num) ∧ outcome = (scope, []) ∨
        ¬ (¬ relaystat.last.isNil ∧ block.num ≤ relaystat.last.num) ∧ ∃ unconfirms,
          recordCommit env transfer it.deposit block actions relaystat.unconfirms = .ok unconfirms ∧
          sendOnBlocks env chain channel.depositSum (unconfirms.take 8) = .ok outcome.2 ∧
          outcome.1 = { scope.setTransfer transfer { it with last := block } with
            relaystat := some { relaystat with unconfirms } }) := by
  unfold commit at ran
  obtain ⟨-, ran⟩ := of_auth ran
  obtain ⟨it, row, ran⟩ := of_row ran
  obtain ⟨_, -, ran⟩ := of_bind ran
  obtain ⟨-, ran⟩ := of_assert ran
  obtain ⟨channel, created, ran⟩ := of_row ran
  obtain ⟨_, compared, ran⟩ := of_bind ran
  obtain ⟨rfl, ran⟩ := of_assert ran
  obtain ⟨relaystat, stat, ran⟩ := of_row ran
  refine ⟨it, channel, relaystat, row, created, compared, stat, ?_⟩
  split_ifs at ran with ignored
  · cases ran
    exact .inl ⟨ignored, rfl⟩
  · obtain ⟨unconfirms, recorded, ran⟩ := of_bind ran
    obtain ⟨sent, sends, ran⟩ := of_bind ran
    cases ran
    exact .inr ⟨ignored, unconfirms, recorded, sends, rfl⟩

theorem commit_cases :
    ∃ it relaystat, scope.transfers transfer = some it ∧ scope.channel.isSome ∧
      scope.relaystat = some relaystat ∧
      ((block.num ≤ relaystat.last.num ∧ outcome.1 = scope) ∨
        ∃ unconfirms, Recorded transfer it.deposit block actions relaystat.unconfirms unconfirms ∧
          outcome.1 = { scope.setTransfer transfer { it with last := block } with
            relaystat := some { relaystat with unconfirms } }) := by
  obtain ⟨it, channel, relaystat, row, created, -, stat,
    ⟨ignored, rfl⟩ | ⟨-, unconfirms, recorded, -, same⟩⟩ := commit_eq_ok ran
  · exact ⟨it, relaystat, row, by rw [created]; rfl, stat, .inl ⟨ignored.2, rfl⟩⟩
  · exact ⟨it, relaystat, row, by rw [created]; rfl, stat,
      .inr ⟨unconfirms, recorded_of_recordCommit recorded, same⟩⟩

end

theorem reachesQuorum_eq_ok {confirm depositSum : Asset} {reached : Bool}
    (ran : reachesQuorum env confirm depositSum = .ok reached) :
    reached = decide (2 * depositSum.amount ≤ 3 * confirm.amount) := by
  obtain ⟨weight, weighed, ran⟩ := of_bind ran
  obtain ⟨needed, doubled, ran⟩ := of_bind ran
  obtain ⟨-, ran⟩ := of_assert ran
  cases ran
  rw [amount_of_mul weighed, amount_of_mul doubled, mul_comm, mul_comm confirm.amount]

theorem findConfirmed_mem {depositSum : Asset}
    (found : findConfirmed env depositSum block unconfirms = .ok (some entry)) :
    entry ∈ unconfirms ∧ entry.base.same block = true ∧
      reachesQuorum env entry.confirm depositSum = .ok true := by
  induction unconfirms with
  | nil => cases found
  | cons first rest ih =>
    have later (found : findConfirmed env depositSum block rest = .ok (some entry)) :=
      And.imp_left (mem_cons_of_mem first) (ih found)
    unfold findConfirmed at found
    split_ifs at found with same
    · obtain ⟨confirmed, reached, found⟩ := of_bind found
      cases confirmed with
      | false => exact later found
      | true =>
        cases found
        exact ⟨mem_cons_self, same, reached⟩
    · exact later found

/-- `onblock` applies an entry of the block that is newer than the last block and that reaches the
quorum. -/
theorem appliedEntry_eq_some (applies : appliedEntry env actors block scope = .ok (some entry)) :
    ∃ relaystat channel, scope.relaystat = some relaystat ∧ scope.channel = some channel ∧
      relaystat.last.num < block.num ∧ entry ∈ relaystat.unconfirms ∧
        entry.base.same block = true ∧
          reachesQuorum env entry.confirm channel.depositSum = .ok true := by
  unfold appliedEntry at applies
  obtain ⟨-, applies⟩ := of_auth applies
  obtain ⟨relaystat, stat, applies⟩ := of_bind applies
  have row : scope.relaystat = some relaystat := by
    cases known : scope.relaystat with
    | none =>
      rw [known] at stat
      cases stat
    | some value =>
      rw [known] at stat
      cases stat
      rfl
  split_ifs at applies with old
  · cases applies
  · obtain ⟨channel, created, applies⟩ := of_row applies
    obtain ⟨_, -, applies⟩ := of_bind applies
    obtain ⟨-, applies⟩ := of_assert applies
    obtain ⟨member, same, reached⟩ := findConfirmed_mem applies
    exact ⟨relaystat, channel, row, created, Nat.lt_of_not_le old, member, same, reached⟩

/-- `onblock` leaves the rows alone, or it makes the block the last one. -/
theorem onblock_cases {entry : Option UnconfirmBlock} {outcome : Scope × List HandlerAction}
    (decided : appliedEntry env actors block scope = .ok entry)
    (ran : onblock env actors block scope = .ok outcome) :
    (entry = none ∧ outcome.1 = scope) ∨
      ∃ applied relaystat, entry = some applied ∧ scope.channel.isSome ∧
        scope.relaystat = some relaystat ∧ relaystat.last.num < block.num ∧
        outcome.1 = { scope with
          relaystat := some { relaystat with
            last := block
            unconfirms := relaystat.unconfirms.filter fun entry => entry.base.num ≠ block.num } } ∧
        outcome.2 = dispatch block applied.actions scope.handlers := by
  unfold onblock at ran
  rw [decided, ok_bind] at ran
  cases entry with
  | none =>
    cases ran
    exact .inl ⟨rfl, rfl⟩
  | some applied =>
    obtain ⟨relaystat, channel, stat, -, newer, -⟩ := appliedEntry_eq_some decided
    rw [Option.elim_some, onblockimp, eosioAssert_bind, requireRow_bind] at ran
    obtain ⟨created, known, found, ran⟩ := ran
    rw [stat] at found
    cases found
    cases ran
    exact .inr ⟨applied, relaystat, rfl, created, stat, newer, rfl, rfl⟩

/-- A deposit is set, and only the channel's sum changes beside it. -/
theorem newTransfer_cases {result : Scope}
    (ran : newTransfer env chain transfer deposit scope = .ok result) :
    ∃ row channel changed, scope.channel = some channel ∧ row.deposit = deposit ∧
      deposit.symbol = env.coreSymbol ∧ 0 ≤ deposit.amount ∧
      changed.depositSum = ⟨channel.depositSum.amount -
        (scope.transfers transfer).elim 0 (·.deposit.amount) + deposit.amount,
        channel.depositSum.symbol⟩ ∧
      result = { scope.setTransfer transfer row with channel := some changed } := by
  unfold newTransfer at ran
  obtain ⟨symbol, ran⟩ := of_assert ran
  obtain ⟨_, compared, ran⟩ := of_bind ran
  obtain ⟨rfl, ran⟩ := of_assert ran
  obtain ⟨channel, created, ran⟩ := of_row ran
  have nonneg := amount_le_of_le compared
  cases known : scope.transfers transfer with
  | none =>
    rw [known, Option.elim_none, firstDeposit] at ran
    obtain ⟨changed, summed, ran⟩ := of_bind ran
    cases ran
    obtain ⟨sum, added, summed⟩ := of_bind summed
    cases summed
    refine ⟨_, channel, _, created, rfl, symbol, nonneg, ?_, rfl⟩
    dsimp only
    rw [eq_of_add added, Option.elim_none, sub_zero]
  | some it =>
    rw [known, Option.elim_some, laterDeposit] at ran
    obtain ⟨covered, -, ran⟩ := of_bind ran
    obtain ⟨-, ran⟩ := of_assert ran
    obtain ⟨changed, summed, ran⟩ := of_bind ran
    cases ran
    obtain ⟨less, subtracted, summed⟩ := of_bind summed
    obtain ⟨sum, added, summed⟩ := of_bind summed
    cases summed
    refine ⟨_, channel, _, created, rfl, symbol, nonneg, ?_, rfl⟩
    dsimp only
    rw [eq_of_add added, eq_of_sub subtracted, Option.elim_some]

/-! ### Calls -/

inductive Effect (env : Environment) (record : Record) : Call → Record → Prop where
  | created (actors : List AccountName) (chain : Name) (id : Checksum256)
      (absent : record.scope.channel = none) :
      Effect env record (.newchannel actors chain id)
        { record with scope := { record.scope with
            channel := some { chain, id, depositSum := env.coreAsset 0 }
            relaystat := some { chain, last := env.nilBlock, unconfirms := [] } } }
  | mapped (actors : List AccountName) (row : MapHandler) (known : record.scope.channel.isSome)
      (unused : ∀ handler ∈ record.scope.handlers,
        handler.actaccount ≠ row.actaccount ∨ handler.actname ≠ row.actname) :
      Effect env record (.newmap actors row)
        { record with scope := { record.scope with
            handlers := setHandler row record.scope.handlers } }
  | unprocessed (sender recipient : AccountName) (quantity : Asset) (memo : String) :
      Effect env record (.ontransfer sender recipient quantity memo) record
  | deposited (sender recipient : AccountName) (quantity : Asset) (memo : String)
      (row : RelayTransfer) (channel : Channel) (foreign : sender ≠ env.self)
      (addressed : recipient = env.self) (processed : "NoProcessMemo" ≠ memo)
      (known : record.scope.channel.isSome) (deposit : row.deposit = quantity) :
      Effect env record (.ontransfer sender recipient quantity memo)
        { record with scope := { record.scope.setTransfer sender row with channel := some channel } }
  | late (actors : List AccountName) (chain : Name) (account : AccountName) (block : BlockType)
      (actions : List Action) (relaystat : BlockRelayStat) (known : record.scope.channel.isSome)
      (stat : record.scope.relaystat = some relaystat) (old : block.num ≤ relaystat.last.num)
      (sent : List OnBlock) :
      Effect env record (.commit actors chain account block actions)
        { record with
          commits := { account, block, actions } :: record.commits
          sent := sent ++ record.sent }
  | committed (actors : List AccountName) (chain : Name) (account : AccountName) (block : BlockType)
      (actions : List Action) (relaystat : BlockRelayStat) (it : RelayTransfer)
      (unconfirms : List UnconfirmBlock) (known : record.scope.channel.isSome)
      (stat : record.scope.relaystat = some relaystat)
      (row : record.scope.transfers account = some it)
      (recorded : Recorded account it.deposit block actions relaystat.unconfirms unconfirms)
      (sent : List OnBlock) :
      Effect env record (.commit actors chain account block actions)
        { record with
          scope := { record.scope.setTransfer account { it with last := block } with
            relaystat := some { relaystat with unconfirms } }
          commits := { account, block, actions } :: record.commits
          sent := sent ++ record.sent }
  | skipped (actors : List AccountName) (chain : Name) (block : BlockType) :
      Effect env record (.onblock actors chain block) record
  | applied (actors : List AccountName) (chain : Name) (block : BlockType) (entry : UnconfirmBlock)
      (relaystat : BlockRelayStat) (known : record.scope.channel.isSome)
      (stat : record.scope.relaystat = some relaystat) (newer : relaystat.last.num < block.num) :
      Effect env record (.onblock actors chain block)
        { record with
          scope := { record.scope with
            relaystat := some { relaystat with
              last := block
              unconfirms := relaystat.unconfirms.filter fun entry => entry.base.num ≠ block.num } }
          applied :=
            { block, actions := entry.actions, handlers := record.scope.handlers,
              sent := dispatch block entry.actions record.scope.handlers } :: record.applied }

theorem effect_of_commit {account : AccountName}
    (ran : commit env actors chain account block actions record.scope = .ok outcome) :
    Effect env record (.commit actors chain account block actions)
      { record with
        scope := outcome.1
        commits := { account, block, actions } :: record.commits
        sent := outcome.2 ++ record.sent } := by
  obtain ⟨scope, sent⟩ := outcome
  obtain ⟨it, relaystat, row, created, stat, ⟨old, rfl⟩ | ⟨unconfirms, recorded, rfl⟩⟩ :=
    commit_cases ran
  · exact .late actors chain account block actions relaystat created stat old sent
  · exact .committed actors chain account block actions relaystat it unconfirms created stat row
      recorded sent

theorem effect_of_onblock {entry : Option UnconfirmBlock} {outcome : Scope × List HandlerAction}
    (decided : appliedEntry env actors block record.scope = .ok entry)
    (ran : onblock env actors block record.scope = .ok outcome) :
    Effect env record (.onblock actors chain block)
      { record with
        scope := outcome.1
        applied := (entry.map fun entry =>
          { block, actions := entry.actions, handlers := record.scope.handlers,
            sent := outcome.2 : Application }).toList ++ record.applied } := by
  obtain ⟨scope, sent⟩ := outcome
  obtain ⟨rfl, rfl⟩ | ⟨entry, relaystat, rfl, created, stat, newer, rfl, rfl⟩ :=
    onblock_cases decided ran
  · exact .skipped actors chain block
  · exact .applied actors chain block entry relaystat created stat newer

theorem effect_of_ontransfer {sender recipient : AccountName} {quantity : Asset} {memo : String}
    (ran : ontransfer env sender recipient quantity memo record.scope = .ok scope) :
    Effect env record (.ontransfer sender recipient quantity memo) { record with scope } := by
  unfold ontransfer at ran
  split_ifs at ran with elsewhere unprocessed
  · cases ran
    exact .unprocessed sender recipient quantity memo
  · cases ran
    exact .unprocessed sender recipient quantity memo
  · obtain ⟨foreign, addressed⟩ := not_or.mp elsewhere
    obtain ⟨row, _, channel, created, deposit, -, -, -, rfl⟩ := newTransfer_cases ran
    exact .deposited sender recipient quantity memo row channel foreign (not_not.mp addressed)
      unprocessed (by rw [created]; rfl) deposit

theorem effect_of_step {next : Record} {call : Call} (ran : record.step env call = .ok next) :
    Effect env record call next := by
  cases call with
  | newchannel actors chain id =>
    obtain ⟨scope, created, returned⟩ := of_bind ran
    cases returned
    obtain ⟨-, created⟩ := of_auth created
    obtain ⟨-, created⟩ := of_assert created
    obtain ⟨absent, created⟩ := of_assert created
    cases created
    exact .created actors chain id absent
  | newmap actors row =>
    obtain ⟨scope, mapped, returned⟩ := of_bind ran
    cases returned
    obtain ⟨-, mapped⟩ := of_auth mapped
    obtain ⟨created, mapped⟩ := of_assert mapped
    obtain ⟨unused, mapped⟩ := of_assert mapped
    cases mapped
    exact .mapped actors row created unused
  | ontransfer sender recipient quantity memo =>
    obtain ⟨scope, transferred, returned⟩ := of_bind ran
    cases returned
    exact effect_of_ontransfer transferred
  | commit actors chain account block actions =>
    obtain ⟨outcome, committed, returned⟩ := of_bind ran
    cases returned
    exact effect_of_commit committed
  | onblock actors chain block =>
    obtain ⟨entry, decided, ran⟩ := of_bind ran
    obtain ⟨outcome, applied, returned⟩ := of_bind ran
    cases returned
    exact effect_of_onblock decided applied

end CodexRelay.Contracts.ForceRelay
