import CodexRelay.Contracts.ForceRelay.Effects

/-!
Contract: the weight behind a block that `onblock` applies, and what an account has deposited.

`commit` adds the deposit that the account has at that moment to the weight of the entry, and
`onblock` compares this weight with the sum of the deposits at a later moment. A transfer replaces
the deposit of its sender. So a sender who takes back a deposit that has been counted leaves a
weight behind that nobody holds any more, while the sum shrinks. And the row of an account holds its
last payment and not the sum of its payments.

Owns:
- the invariant that a pending entry weighs no more than its accounts hold, which every call
  keeps except such a transfer;
- the ledger of the payments beside the tables, and the law that relates the two as long as nobody
  pays on top of a deposit;
- that the sum of a channel is that of the deposits of its rows.
-/

namespace CodexRelay.Contracts.ForceRelay

open Chain Scope

/-- The deposit of an account; without a row it is nothing. -/
def Scope.depositOf (scope : Scope) (account : AccountName) : Int :=
  (scope.transfers account).elim 0 (·.deposit.amount)

def Scope.held (scope : Scope) (accounts : List AccountName) : Int :=
  ∑ account ∈ accounts.toFinset, scope.depositOf account

/-- No transfer lowers a deposit that has been counted for a pending entry. -/
def KeepsCountedDeposits (env : Environment) (scope : Scope) : Call → Prop
  | .ontransfer sender recipient quantity memo =>
    sender ≠ env.self → recipient = env.self → "NoProcessMemo" ≠ memo →
      ∀ entry ∈ scope.pending, sender ∈ entry.confirmeds → scope.depositOf sender ≤ quantity.amount
  | _ => True

instance (env : Environment) (scope : Scope) :
    (call : Call) → Decidable (KeepsCountedDeposits env scope call)
  | .ontransfer .. => inferInstanceAs (Decidable (_ → _ → _ → ∀ _ ∈ _, _ → _))
  | .newchannel .. | .newmap .. | .commit .. | .onblock .. => .isTrue trivial

def Backed (scope : Scope) : Prop :=
  ∀ entry ∈ scope.pending,
    entry.confirmeds.Nodup ∧ entry.confirm.amount ≤ scope.held entry.confirmeds

variable {env : Environment} {scope result : Scope}

theorem Scope.held_append {accounts : List AccountName} {account : AccountName}
    (absent : account ∉ accounts) :
    scope.held (accounts ++ [account]) = scope.held accounts + scope.depositOf account := by
  unfold held
  rw [List.toFinset_append, Finset.sum_union (by simpa using absent)]
  simp

/-- Entries stay backed when none is added and no deposit of theirs is lowered. -/
theorem Backed.of_le (backed : Backed scope) (fewer : ∀ entry ∈ result.pending, entry ∈ scope.pending)
    (kept : ∀ entry ∈ scope.pending, ∀ account ∈ entry.confirmeds,
      scope.depositOf account ≤ result.depositOf account) : Backed result := by
  intro entry member
  obtain ⟨distinct, weight⟩ := backed entry (fewer entry member)
  refine ⟨distinct, weight.trans (Finset.sum_le_sum fun account counted => ?_)⟩
  exact kept entry (fewer entry member) account (List.mem_toFinset.mp counted)

/-! ### Calls -/

section

variable {account : AccountName} {row : RelayTransfer}

theorem Scope.depositOf_setTransfer_self :
    (scope.setTransfer account row).depositOf account = row.deposit.amount := by
  simp [depositOf, setTransfer]

theorem Scope.depositOf_setTransfer_of_ne {other : AccountName} (different : other ≠ account) :
    (scope.setTransfer account row).depositOf other = scope.depositOf other := by
  simp [depositOf, setTransfer, different]

theorem Backed.setTransfer (backed : Backed scope)
    (kept : ∀ entry ∈ scope.pending, account ∈ entry.confirmeds →
      scope.depositOf account ≤ row.deposit.amount) : Backed (scope.setTransfer account row) := by
  refine backed.of_le (fun _ member => member) fun entry member other counted => ?_
  by_cases same : other = account
  · subst same
    rw [depositOf_setTransfer_self]
    exact kept entry member counted
  · rw [depositOf_setTransfer_of_ne same]

theorem Backed.recorded {relaystat : BlockRelayStat} {it : RelayTransfer} {block : BlockType}
    {actions : List Action} {unconfirms : List UnconfirmBlock} (backed : Backed scope)
    (stat : scope.relaystat = some relaystat) (found : scope.transfers account = some it)
    (recorded : Recorded account it.deposit block actions relaystat.unconfirms unconfirms) :
    Backed { scope with relaystat := some { relaystat with unconfirms } } := by
  intro entry member
  obtain ⟨member, newer⟩ := (mem_pending rfl).mp member
  have own : scope.depositOf account = it.deposit.amount := by
    rw [depositOf, found, Option.elim_some]
  show _ ∧ entry.confirm.amount ≤ scope.held entry.confirmeds
  rcases recorded.mem member with old | fresh | ⟨old, newConfirm, known, -, absent, added, joined⟩
  · exact backed entry ((mem_pending stat).mpr ⟨old, newer⟩)
  · subst fresh
    refine ⟨List.nodup_singleton _, ?_⟩
    simp [held, own]
  · subst joined
    obtain ⟨distinct, weight⟩ := backed old ((mem_pending stat).mpr ⟨known, newer⟩)
    refine ⟨distinct.append (List.nodup_singleton _) (by simpa using absent), ?_⟩
    rw [held_append absent, own, added]
    omega

end

theorem Backed.step {record next : Record} {call : Call} (backed : Backed record.scope)
    (kept : KeepsCountedDeposits env record.scope call) (effect : Effect env record call next) :
    Backed next.scope := by
  cases effect with
  | created => exact fun _ member => nomatch member
  | mapped => exact backed
  | unprocessed => exact backed
  | deposited _ _ _ _ _ _ foreign addressed processed _ deposit =>
    have unlowered := kept foreign addressed processed
    rw [← deposit] at unlowered
    exact backed.setTransfer unlowered
  | late => exact backed
  | committed _ _ account block _ relaystat it unconfirms _ stat row recorded =>
    have recordedBacked := backed.recorded stat row recorded
    refine recordedBacked.setTransfer fun _ _ _ => ?_
    rw [depositOf, row, Option.elim_some]
  | skipped => exact backed
  | applied _ _ _ _ relaystat _ stat newer =>
    refine backed.of_le (fun entry member => ?_) fun _ _ _ _ => le_rfl
    obtain ⟨kept, pending⟩ := (mem_pending rfl).mp member
    exact (mem_pending stat).mpr ⟨(List.mem_filter.mp kept).1, newer.trans pending⟩

/-! ### Runs -/

/-- While no transfer lowers a deposit that has been counted, the accounts that confirmed a block
hold two thirds of the deposits when it is applied. -/
theorem appliedEntry_two_thirds {visited : List World} {last : World}
    (run : Library.Run (Step env (KeepsCountedDeposits env)) (fun _ => {}) visited last)
    (chain : Name) {actors : List AccountName} {block : BlockType} {entry : UnconfirmBlock}
    (applies : appliedEntry env actors block (last chain).scope = .ok (some entry)) :
    ∃ channel, (last chain).scope.channel = some channel ∧
      2 * channel.depositSum.amount ≤ 3 * (last chain).scope.held entry.confirmeds := by
  have backed : Backed (last chain).scope :=
    @Step.invariant _ _ (fun record => Backed record.scope) (fun _ member => nomatch member)
      (fun _ _ _ kept allowed ran => kept.step allowed (effect_of_step ran)) _ _ run chain
  obtain ⟨relaystat, channel, stat, created, newer, member, same, reached⟩ :=
    appliedEntry_eq_some applies
  have pending : entry ∈ (last chain).scope.pending :=
    (mem_pending stat).mpr ⟨member, by rw [BlockType.num_of_same same]; exact newer⟩
  have weight := (backed entry pending).2
  have quorum := of_decide_eq_true (reachesQuorum_eq_ok reached).symm
  exact ⟨channel, created, by omega⟩

/-- Two of three accounts commit the first block. After its commit the first one deposits more, and
the third one deposits and takes its deposit back. -/
theorem appliedEntry_two_thirds_joined : ∃ visited last,
      Library.Run (Step .bounded (KeepsCountedDeposits .bounded)) (fun _ => {}) visited last ∧
        ∃ channel, (last 7).scope.channel = some channel ∧
          2 * channel.depositSum.amount ≤ 3 * (last 7).scope.held [2, 3] := by
  obtain ⟨visited, last, run, applies⟩ := @exists_run .bounded (KeepsCountedDeposits .bounded) _
    [.newchannel [7] 7 0, .ontransfer 2 1 ⟨40, 4⟩ "", .ontransfer 3 1 ⟨40, 4⟩ "",
      .commit [2] 7 2 firstBlock [], .ontransfer 2 1 ⟨45, 4⟩ "", .ontransfer 4 1 ⟨30, 4⟩ "",
      .ontransfer 4 1 ⟨20, 4⟩ "", .commit [3] 7 3 firstBlock []]
    (fun last => appliedEntry .bounded [1] firstBlock (last 7).scope =
      .ok (some ⟨firstBlock, ⟨80, 4⟩, [], [2, 3]⟩)) _ (by decide +kernel)
  exact ⟨visited, last, run, appliedEntry_two_thirds run 7 applies⟩

/-- The accounts 2 and 3 deposit 60 and 40, and 2 commits the first block. Then 2 takes its deposit
back but for 1. The commit of the second block by 3 sends an `onblock` for the first one, which is
applied with a weight of 60, where the sum of the deposits is 41 and 2 holds 1 of them. -/
theorem appliedEntry_after_withdrawal :
    ∃ visited last, Library.Run (Step .bounded fun _ _ => True) (fun _ => {}) visited last ∧
      ⟨7, firstBlock, []⟩ ∈ (last 7).sent ∧
      appliedEntry .bounded [1] firstBlock (last 7).scope =
        .ok (some ⟨firstBlock, ⟨60, 4⟩, [], [2]⟩) ∧
      (last 7).scope.channel = some ⟨7, 0, ⟨41, 4⟩⟩ ∧ (last 7).scope.held [2] = 1 :=
  exists_run [.newchannel [7] 7 0, .ontransfer 2 1 ⟨60, 4⟩ "", .ontransfer 3 1 ⟨40, 4⟩ "",
    .commit [2] 7 2 firstBlock [], .ontransfer 2 1 ⟨1, 4⟩ "", .commit [3] 7 3 secondBlock []]
    (by decide +kernel)

open Function Finset

variable {record next : Record} {call : Call}

def Call.payment (env : Environment) : Call → AccountName → Int
  | .ontransfer sender recipient quantity memo, account =>
    if sender ≠ env.self ∧ recipient = env.self ∧ "NoProcessMemo" ≠ memo ∧ account = sender
    then quantity.amount else 0
  | _, _ => 0

/-- The tables of the contract, with the core tokens that every account has transferred to it with
the memo of a channel. -/
structure Ledger where
  world : World := fun _ => {}
  paid : Name → AccountName → Int := fun _ _ => 0

def Ledger.step (env : Environment) (ledger : Ledger) (call : Call) : Checked Ledger := do
  let record ← (ledger.world (call.chain env)).step env call
  return {
    world := update ledger.world (call.chain env) record
    paid := update ledger.paid (call.chain env) fun account =>
      ledger.paid (call.chain env) account + call.payment env account }

def PaysOnce (env : Environment) (ledger : Ledger) : Call → Prop
  | .ontransfer sender recipient _ memo =>
    sender ≠ env.self → recipient = env.self → "NoProcessMemo" ≠ memo →
      (ledger.world (env.stringToName memo)).scope.depositOf sender = 0
  | _ => True

instance (env : Environment) (ledger : Ledger) : (call : Call) → Decidable (PaysOnce env ledger call)
  | .ontransfer .. => inferInstanceAs (Decidable (_ → _ → _ → _))
  | .newchannel .. | .newmap .. | .commit .. | .onblock .. => .isTrue trivial

theorem depositOf_of_ontransfer {sender recipient : AccountName} {quantity : Asset} {memo : String}
    (once : sender ≠ env.self → recipient = env.self → "NoProcessMemo" ≠ memo →
      scope.depositOf sender = 0)
    (ran : ontransfer env sender recipient quantity memo scope = .ok result)
    (account : AccountName) :
    result.depositOf account = scope.depositOf account +
      Call.payment env (.ontransfer sender recipient quantity memo) account := by
  unfold ontransfer at ran
  split_ifs at ran with elsewhere unprocessed
  · cases ran
    have nothing : ¬ (sender ≠ env.self ∧ recipient = env.self ∧ "NoProcessMemo" ≠ memo ∧
        account = sender) := fun paid => elsewhere.elim paid.1 fun other => other paid.2.1
    rw [Call.payment, if_neg nothing, add_zero]
  · cases ran
    have nothing : ¬ (sender ≠ env.self ∧ recipient = env.self ∧ "NoProcessMemo" ≠ memo ∧
        account = sender) := fun paid => paid.2.2.1 unprocessed
    rw [Call.payment, if_neg nothing, add_zero]
  · obtain ⟨foreign, addressed⟩ := not_or.mp elsewhere
    obtain ⟨row, _, channel, -, deposit, -, -, -, rfl⟩ := newTransfer_cases ran
    show (scope.setTransfer sender row).depositOf account = _
    by_cases same : account = sender
    · subst same
      rw [depositOf_setTransfer_self, deposit, once foreign (not_not.mp addressed) unprocessed,
        Call.payment, if_pos ⟨foreign, not_not.mp addressed, unprocessed, rfl⟩, zero_add]
    · rw [depositOf_setTransfer_of_ne same, Call.payment,
        if_neg fun paid => same paid.2.2.2, add_zero]

theorem depositOf_of_effect (effect : Effect env record call next)
    (other : ∀ sender recipient quantity memo, call ≠ .ontransfer sender recipient quantity memo)
    (account : AccountName) : next.scope.depositOf account = record.scope.depositOf account := by
  cases effect with
  | created => rfl
  | mapped => rfl
  | unprocessed sender recipient quantity memo => exact absurd rfl (other _ _ _ _)
  | deposited sender recipient quantity memo => exact absurd rfl (other _ _ _ _)
  | late => rfl
  | committed _ _ committer block _ relaystat it unconfirms _ _ row =>
    show (record.scope.setTransfer committer { it with last := block }).depositOf account = _
    by_cases same : account = committer
    · subst same
      rw [depositOf_setTransfer_self, depositOf, row, Option.elim_some]
    · rw [depositOf_setTransfer_of_ne same]
  | skipped => rfl
  | applied => rfl

theorem depositOf_of_step
    (once : ∀ sender recipient quantity memo, call = .ontransfer sender recipient quantity memo →
      sender ≠ env.self → recipient = env.self → "NoProcessMemo" ≠ memo →
        record.scope.depositOf sender = 0) (ran : record.step env call = .ok next)
    (account : AccountName) :
    next.scope.depositOf account = record.scope.depositOf account + call.payment env account := by
  have unpaid (other : ∀ sender recipient quantity memo,
        call ≠ .ontransfer sender recipient quantity memo) (nothing : call.payment env account = 0) :
      next.scope.depositOf account = record.scope.depositOf account + call.payment env account := by
    rw [nothing, add_zero]
    exact depositOf_of_effect (effect_of_step ran) other account
  cases call with
  | ontransfer sender recipient quantity memo =>
    obtain ⟨scope, transferred, returned⟩ := of_bind ran
    cases returned
    exact depositOf_of_ontransfer (once sender recipient quantity memo rfl) transferred account
  | newchannel => exact unpaid nofun rfl
  | newmap => exact unpaid nofun rfl
  | commit => exact unpaid nofun rfl
  | onblock => exact unpaid nofun rfl

/-- While nobody pays on top of a deposit, every deposit is what its account has paid. -/
theorem depositOf_eq_paid {visited : List Ledger} {last : Ledger}
    (run : Library.Run (Library.Taken (Ledger.step env) (PaysOnce env)) {} visited last)
    (chain : Name) (account : AccountName) :
    (last.world chain).scope.depositOf account = last.paid chain account := by
  have everywhere : ∀ chain account,
      (last.world chain).scope.depositOf account = last.paid chain account := by
    apply @Library.Taken.invariant _ _ _ _ _ _ last _
      (fun ledger => ∀ chain account,
        (ledger.world chain).scope.depositOf account = ledger.paid chain account)
      (fun _ _ => rfl) _ run
    intro ledger call next equal once stepped other holder
    obtain ⟨record, ran, returned⟩ := of_bind stepped
    cases returned
    by_cases same : other = call.chain env
    · subst same
      simp only [update_self]
      rw [← equal]
      refine depositOf_of_step (fun sender recipient quantity memo transferred => ?_) ran holder
      subst transferred
      exact once
    · simp only [update_of_ne same]
      exact equal other holder
  exact everywhere chain account

/-- The accounts 2 and 3 pay 60 and 40. -/
theorem depositOf_eq_paid_two : ∃ visited last,
      Library.Run (Library.Taken (Ledger.step .bounded) (PaysOnce .bounded)) {} visited last ∧
        last.paid 7 2 = 60 ∧ (last.world 7).scope.depositOf 2 = last.paid 7 2 := by
  obtain ⟨visited, last, run, paid⟩ := @Library.exists_run_of_replay _ _ _ (Ledger.step .bounded)
    (PaysOnce .bounded) {} _
    [.newchannel [7] 7 0, .ontransfer 2 1 ⟨60, 4⟩ "", .ontransfer 3 1 ⟨40, 4⟩ ""]
    (fun last => last.paid 7 2 = 60) _ (by decide +kernel)
  exact ⟨visited, last, run, paid, depositOf_eq_paid run 7 2⟩

/-- The account 2 pays 60 and then 1, and its deposit is 1. -/
theorem depositOf_after_second_payment : ∃ visited last,
      Library.Run (Library.Taken (Ledger.step .bounded) fun _ _ => True) {} visited last ∧
        last.paid 7 2 = 61 ∧ (last.world 7).scope.depositOf 2 = 1 :=
  Library.exists_run_of_replay
    [.newchannel [7] 7 0, .ontransfer 2 1 ⟨60, 4⟩ "", .ontransfer 2 1 ⟨1, 4⟩ ""] (by decide +kernel)

/-! ### The sum of the deposits -/

def Scope.deposits (scope : Scope) (account : AccountName) : Option Asset :=
  (scope.transfers account).map (·.deposit)

/-- No deposit is negative, and the channel has their sum. Without a channel there are none. -/
structure Summed (env : Environment) (scope : Scope) : Prop where
  unopened : scope.channel = none → ∀ account, scope.deposits account = none
  deposit : ∀ account, ∀ deposit ∈ scope.deposits account,
    deposit.symbol = env.coreSymbol ∧ 0 ≤ deposit.amount
  sum : ∃ accounts : Finset AccountName,
    (∀ account, account ∈ accounts ↔ (scope.deposits account).isSome) ∧
      ∀ channel ∈ scope.channel, channel.depositSum =
        env.coreAsset (∑ account ∈ accounts, (scope.deposits account).elim 0 (·.amount))

theorem Scope.deposits_setTransfer {account : AccountName} {row : RelayTransfer} :
    (scope.setTransfer account row).deposits =
      update scope.deposits account (some row.deposit) := by
  funext other
  by_cases same : other = account
  · subst same
    simp [deposits, setTransfer]
  · simp [deposits, setTransfer, same]

theorem sum_update_deposit {deposits : AccountName → Option Asset} {accounts : Finset AccountName}
    (listed : ∀ account, account ∈ accounts ↔ (deposits account).isSome) (account : AccountName)
    (deposit : Asset) :
    ∑ other ∈ insert account (accounts.erase account),
        (update deposits account (some deposit) other).elim 0 (·.amount) =
      (∑ other ∈ accounts, (deposits other).elim 0 (·.amount)) -
        (deposits account).elim 0 (·.amount) + deposit.amount := by
  have others : ∀ other ∈ accounts.erase account,
      (update deposits account (some deposit) other).elim 0 (·.amount) =
        (deposits other).elim 0 (·.amount) := by
    intro other member
    rw [update_of_ne (ne_of_mem_erase member)]
  have before : ∑ other ∈ accounts, (deposits other).elim 0 (·.amount) =
      (deposits account).elim 0 (·.amount) +
        ∑ other ∈ accounts.erase account, (deposits other).elim 0 (·.amount) := by
    by_cases member : account ∈ accounts
    · exact (add_sum_erase accounts _ member).symm
    · rw [erase_eq_of_notMem member]
      rw [listed, Option.not_isSome_iff_eq_none] at member
      rw [member, Option.elim_none, zero_add]
  rw [sum_insert (notMem_erase account accounts), update_self,
    sum_congr rfl others, before, Option.elim_some]
  omega

theorem Summed.newTransfer {chain : Name} {transfer : AccountName} {deposit : Asset}
    (summed : Summed env scope) (ran : newTransfer env chain transfer deposit scope = .ok result) :
    Summed env result := by
  obtain ⟨row, channel, changed, created, rfl, symbol, nonneg, total, rfl⟩ := newTransfer_cases ran
  obtain ⟨accounts, listed, sum⟩ := summed.sum
  have set : ∀ account, deposits { scope.setTransfer transfer row with channel := some changed }
      account = update scope.deposits transfer (some row.deposit) account := fun account =>
    congrFun deposits_setTransfer account
  refine ⟨nofun, fun account found isFound => ?_, insert transfer (accounts.erase transfer), ?_, ?_⟩
  · rw [set] at isFound
    by_cases same : account = transfer
    · subst same
      rw [update_self] at isFound
      cases isFound
      exact ⟨symbol, nonneg⟩
    · rw [update_of_ne same] at isFound
      exact summed.deposit account found isFound
  · intro account
    rw [set]
    by_cases same : account = transfer
    · simp [same]
    · simp [same, listed]
  · rintro _ ⟨⟩
    have old : (scope.transfers transfer).elim 0 (·.deposit.amount) =
        (scope.deposits transfer).elim 0 (·.amount) := by
      unfold deposits
      cases scope.transfers transfer with
      | none => rfl
      | some => rfl
    simp only [set]
    rw [sum_update_deposit listed, total, sum channel created, old]
    rfl

theorem Summed.of_same (summed : Summed env scope) (channel : result.channel = scope.channel)
    (deposits : result.deposits = scope.deposits) :
    Summed env result := by
  obtain ⟨unopened, deposit, sum⟩ := summed
  rw [← channel, ← deposits] at *
  exact ⟨unopened, deposit, sum⟩

theorem Summed.of_effect (summed : Summed env record.scope) (effect : Effect env record call next)
    (other : ∀ sender recipient quantity memo, call ≠ .ontransfer sender recipient quantity memo) :
    Summed env next.scope := by
  cases effect with
  | created actors chain id absent =>
    have none := summed.unopened absent
    refine ⟨nofun, fun account found isFound => ?_, ∅, fun account => ?_, ?_⟩
    · cases (none account).symm.trans isFound
    · show account ∈ ∅ ↔ (record.scope.deposits account).isSome
      simp [none account]
    · rintro _ ⟨⟩
      rfl
  | unprocessed | deposited => exact absurd rfl (other _ _ _ _)
  | mapped | late | skipped | applied => exact summed.of_same rfl rfl
  | committed _ _ account block _ relaystat it _ _ _ row =>
    refine summed.of_same (by rfl) ?_
    have own : some it.deposit = record.scope.deposits account := by
      unfold deposits
      rw [row]
      rfl
    show (record.scope.setTransfer account { it with last := block }).deposits = _
    rw [deposits_setTransfer]
    dsimp only
    rw [own, update_eq_self]

theorem Summed.step (summed : Summed env record.scope) (ran : record.step env call = .ok next) :
    Summed env next.scope := by
  cases call with
  | ontransfer sender recipient quantity memo =>
    obtain ⟨scope, transferred, returned⟩ := of_bind ran
    cases returned
    unfold ontransfer at transferred
    split_ifs at transferred
    · cases transferred
      exact summed
    · cases transferred
      exact summed
    · exact summed.newTransfer transferred
  | newchannel | newmap | commit | onblock => exact summed.of_effect (effect_of_step ran) nofun

/-- **The sum of the deposits.** In every run the sum of a channel is that of the deposits in its
rows. It is not negative, and no old deposit is larger. -/
theorem depositSum_eq_sum {visited : List World} {last : World}
    (run : Library.Run (Step env fun _ _ => True) (fun _ => {}) visited last) {chain : Name}
    {channel : Channel} (created : (last chain).scope.channel = some channel) :
    0 ≤ channel.depositSum.amount ∧
      (∃ accounts : Finset AccountName,
        (∀ account, account ∈ accounts ↔ ((last chain).scope.transfers account).isSome) ∧
        channel.depositSum.amount =
          ∑ account ∈ accounts, (last chain).scope.depositOf account) ∧
      ∀ account it, (last chain).scope.transfers account = some it →
        Eosiolib.le it.deposit channel.depositSum = .ok true := by
  have summed : Summed env (last chain).scope :=
    @Step.invariant _ _ (fun record => Summed env record.scope)
      ⟨fun _ _ => rfl, nofun, ∅, fun _ => by simp [deposits], nofun⟩
      (fun _ _ _ kept _ ran => kept.step ran) _ _ run chain
  obtain ⟨accounts, listed, sum⟩ := summed.sum
  have measured : ∀ account, ((last chain).scope.deposits account).elim 0 (·.amount) =
      (last chain).scope.depositOf account := by
    intro account
    unfold deposits depositOf
    cases (last chain).scope.transfers account with
    | none => rfl
    | some => rfl
  simp only [measured] at sum
  have nonneg : ∀ account, 0 ≤ (last chain).scope.depositOf account := by
    intro account
    unfold depositOf
    cases found : (last chain).scope.transfers account with
    | none => exact le_rfl
    | some it => exact (summed.deposit account it.deposit (by simp [deposits, found])).2
  rw [sum channel created]
  refine ⟨sum_nonneg fun account _ => nonneg account,
    ⟨accounts, fun account => by simpa [deposits] using listed account, rfl⟩,
    fun account it found => ?_⟩
  have own : (last chain).scope.deposits account = some it.deposit := by
    simp [deposits, found]
  have symbol := (summed.deposit account it.deposit own).1
  have member : account ∈ accounts := by
    rw [listed, own]
    rfl
  have bounded := single_le_sum (fun other _ => nonneg other) member
  have amount : (last chain).scope.depositOf account = it.deposit.amount := by
    simp [depositOf, found]
  rw [amount] at bounded
  unfold Eosiolib.le eosioAssert Eosiolib.coreAsset
  rw [eosAssert_of symbol, ok_bind]
  exact congrArg Except.ok (decide_eq_true bounded)

/-- The accounts 2 and 3 pay 60 and 40, and then 2 pays 1. -/
theorem depositSum_eq_sum_two : ∃ visited last channel,
      Library.Run (Step .bounded fun _ _ => True) (fun _ => {}) visited last ∧
      (last 7).scope.channel = some channel ∧ channel.depositSum.amount = 41 ∧
      ∀ account it, (last 7).scope.transfers account = some it →
        Eosiolib.le it.deposit channel.depositSum = .ok true := by
  obtain ⟨visited, last, run, created⟩ := @exists_run .bounded (fun _ _ => True) _
    [.newchannel [7] 7 0, .ontransfer 2 1 ⟨60, 4⟩ "", .ontransfer 3 1 ⟨40, 4⟩ "",
      .ontransfer 2 1 ⟨1, 4⟩ ""]
    (fun last => (last 7).scope.channel = some ⟨7, 0, ⟨41, 4⟩⟩) _ (by decide +kernel)
  exact ⟨visited, last, _, run, created, rfl, (depositSum_eq_sum run created).2.2⟩

end CodexRelay.Contracts.ForceRelay
