import CodexRelay.Contracts.ForceSystem.Producer
import CodexRelay.Contracts.ForceSystem.Voting
import CodexRelay.Library.Run

/-!
Contract: runs of `force.system`.

Owns:
- what an inline action does when it is executed: `force.token` moves core tokens between accounts,
  and `rewardmine` is an action of the contract itself;
- `step`, which executes an action or the next inline action. Inline actions are executed before
  those that were sent earlier, as the host does.

An action and the inline actions it causes are one transaction: a run that cannot go on has been
reverted to where the transaction began.
-/

namespace CodexRelay.Contracts.ForceSystem

open Chain Library

variable (env : Environment)

/-- The actions of the contract with the accounts that authorize them, the execution of the next
inline action, and the end of a block. -/
inductive Call where
  | updatebp (actors : List AccountName) (bpname : AccountName) (blockSigningKey : Nat)
      (commissionRate : Nat) (url : String)
  | removebp (actors : List AccountName) (bpname : AccountName)
  | freeze (actors : List AccountName) (voter : AccountName) (stake : Asset)
  | unfreeze (actors : List AccountName) (voter : AccountName)
  | vote (actors : List AccountName) (voter bpname : AccountName) (stake : Asset)
  | vote4ram (actors : List AccountName) (voter bpname : AccountName) (stake : Asset)
  | vote4ram2 (actors : List AccountName) (voter bpname : AccountName) (stake : Asset)
  | fee (actors : List AccountName) (payer bpname : AccountName) (voteage : Int)
  | onblock (bpname : AccountName) (scheduleVersion : Nat) (activeProducers : List AccountName)
  | rewardmine (actors : List AccountName) (rewardNum : Int)
  | addmortgage (actors : List AccountName) (bpname payer : AccountName) (quantity : Asset)
  | claimmortgage (actors : List AccountName) (bpname receiver : AccountName) (quantity : Asset)
  | claimbp (actors : List AccountName) (bpname receiver : AccountName)
  | claimvote (actors : List AccountName) (bpname receiver : AccountName)
  | punishbp (actors : List AccountName) (initiator bpname : AccountName)
  | canclepunish (actors : List AccountName) (initiator bpname : AccountName)
  | apppunish (actors : List AccountName) (bpname punishbpname : AccountName)
  | unapppunish (actors : List AccountName) (bpname punishbpname : AccountName)
  | bailpunish (actors : List AccountName) (punishbpname : AccountName)
  | inline
  | nextBlock

/-! ### Tokens -/

def subBalance (owner : AccountName) (value : Int) (tables : Tables) : Checked Tables := do
  eosioAssert (value ≤ tables.balances owner) "overdrawn balance"
  return { tables with
    balances := Function.update tables.balances owner (tables.balances owner - value) }

def addBalance (owner : AccountName) (value : Int) (tables : Tables) : Checked Tables := do
  let balance ← plus env (tables.balances owner) value
  return { tables with balances := Function.update tables.balances owner balance }

def transfer (sender recipient : AccountName) (quantity : Int) (memo : String) (tables : Tables) :
    Checked Tables := do
  eosioAssert (sender ≠ recipient) "cannot transfer to self"
  eosioAssert (env.isAccount recipient) "to account does not exist"
  eosioAssert (0 < quantity) "must transfer positive quantity"
  eosioAssert (memo.utf8ByteSize ≤ 256) "memo has more than 256 bytes"
  let tables ← subBalance sender quantity tables
  addBalance env recipient quantity tables

/-- `issue` of `force.token`, with the authority of the system account. -/
def issue (recipient : AccountName) (quantity : Int) (memo : String) (tables : Tables) :
    Checked (Tables × List Sent) := do
  eosioAssert (memo.utf8ByteSize ≤ 256) "memo has more than 256 bytes"
  requireAuth [env.systemAccount] env.issuer
  eosioAssert (0 < quantity) "must issue positive quantity"
  eosioAssert (quantity ≤ env.maxSupply - tables.supply) "quantity exceeds available supply"
  let tables ← addBalance env env.issuer quantity
    { tables with supply := tables.supply + quantity }
  return (tables, if recipient = env.issuer then []
    else [.transfer env.issuer recipient quantity memo])

def castcoin (sender recipient : AccountName) (quantity : Int) (tables : Tables) :
    Checked Tables := do
  eosioAssert (sender = env.rewardAccount) "only the account force.reward can cast coin to others"
  eosioAssert (env.isAccount recipient) "to account does not exist"
  eosioAssert (0 < quantity) "must transfer positive quantity"
  eosioAssert (env.castOpened tables.blockNum recipient) "the cast is not opened"
  subBalance sender quantity tables

/-! ### Steps -/

def silent (ran : Checked Tables) : Checked (Tables × List Sent) := do
  let tables ← ran
  return (tables, [])

/-- An inline action, with what it sends. Those to `relay.token` do not touch these tables. -/
def executeSent (tables : Tables) : Sent → Checked (Tables × List Sent)
  | .transfer sender recipient quantity memo =>
    silent (transfer env sender recipient quantity memo tables)
  | .issue recipient quantity memo => issue env recipient quantity memo tables
  | .castcoin sender recipient quantity => silent (castcoin env sender recipient quantity tables)
  | .settlemine => return (tables, [])
  | .activemine => return (tables, [])
  | .relayRewardmine _ => return (tables, [])
  | .rewardmine rewardNum => rewardmine env [env.systemAccount] rewardNum tables

def executeInline (tables : Tables) : Checked (Tables × List Sent) :=
  match tables.inline with
  | [] => .error ⟨.eosioAssertMessageException, "no inline action"⟩
  | sent :: rest => executeSent env { tables with inline := rest } sent

def execute (tables : Tables) : Call → Checked (Tables × List Sent)
  | .updatebp actors bpname blockSigningKey commissionRate url =>
    silent (updatebp actors bpname blockSigningKey commissionRate url tables)
  | .removebp actors bpname => silent (removebp env actors bpname tables)
  | .freeze actors voter stake => freeze env actors voter stake tables
  | .unfreeze actors voter => unfreeze env actors voter tables
  | .vote actors voter bpname stake => silent (vote env actors voter bpname stake tables)
  | .vote4ram actors voter bpname stake => silent (vote4ram env actors voter bpname stake tables)
  | .vote4ram2 actors voter bpname stake => vote4ram2 env actors voter bpname stake tables
  | .fee actors payer bpname voteage => silent (fee actors payer bpname voteage tables)
  | .onblock bpname scheduleVersion activeProducers =>
    onblock env bpname scheduleVersion activeProducers tables
  | .rewardmine actors rewardNum => rewardmine env actors rewardNum tables
  | .addmortgage actors bpname payer quantity => addmortgage env actors bpname payer quantity tables
  | .claimmortgage actors bpname receiver quantity =>
    claimmortgage env actors bpname receiver quantity tables
  | .claimbp actors bpname receiver => claimbp env actors bpname receiver tables
  | .claimvote actors bpname receiver => claimvote env actors bpname receiver tables
  | .punishbp actors initiator bpname => punishbp env actors initiator bpname tables
  | .canclepunish actors initiator bpname => canclepunish env actors initiator bpname tables
  | .apppunish actors bpname punishbpname => apppunish env actors bpname punishbpname tables
  | .unapppunish actors bpname punishbpname =>
    silent (unapppunish actors bpname punishbpname tables)
  | .bailpunish actors punishbpname => bailpunish env actors punishbpname tables
  | .inline => executeInline env tables
  | .nextBlock => return ({ tables with blockNum := tables.blockNum + 1 }, [])

/-- A step. What an action sends is executed before what was sent earlier. -/
def step (tables : Tables) (call : Call) : Checked Tables := do
  let (tables, sent) ← execute env tables call
  return { tables with inline := sent ++ tables.inline }

def producers : List AccountName := (List.range 21).map fun number => number + 10

def register : List Call := producers.map fun bpname => .updatebp [bpname] bpname 0 1 ""

variable {env} {tables result : Tables}

theorem ok_of_silent {ran : Checked Tables} {sent : List Sent}
    (silenced : silent ran = .ok (result, sent)) : ran = .ok result ∧ sent = [] := by
  obtain ⟨_, done, returned⟩ := of_bind silenced
  cases returned
  exact ⟨done, rfl⟩

end CodexRelay.Contracts.ForceSystem
