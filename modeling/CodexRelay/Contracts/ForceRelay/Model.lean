import CodexRelay.Contracts.Eosiolib
import CodexRelay.Library.Run

/-!
Contract: the contract `force.relay`, which applies blocks of another chain once the accounts that
relay it have confirmed them with two thirds of the deposits.

Owns:
- the rows of its tables. Every table is scoped by the chain, so that `Scope` holds what the
  contract knows about one chain;
- the actions `newchannel`, `newmap`, `commit` and `onblock`, and the notification of a transfer of
  the core token. An action returns the inline actions that it sends.

Does not own: the host, which runs the inline actions after the action that sent them. An abort
undoes the whole transaction, so that a run consists of the actions that did not abort.
-/

namespace CodexRelay.Contracts.ForceRelay

open Chain

/-! ### Rows -/

structure BlockType where
  producer : AccountName := 0
  num : Nat := 0
  id : Checksum256
  previous : Checksum256
  confirmed : Nat := 1
  transactionMroot : Checksum256
  actionMroot : Checksum256
deriving DecidableEq

def BlockType.isNil (block : BlockType) : Bool := block.producer = 0

/-- `operator ==`, which leaves the producer, the previous block and the confirmations out. -/
def BlockType.same (block other : BlockType) : Bool :=
  block.id = other.id ∧ block.num = other.num ∧ block.transactionMroot = other.transactionMroot ∧
    block.actionMroot = other.actionMroot

structure UnconfirmBlock where
  base : BlockType
  confirm : Asset
  actions : List Action
  confirmeds : List AccountName
deriving DecidableEq

def UnconfirmBlock.confirmBy (entry : UnconfirmBlock) (committer : AccountName) :
    Checked UnconfirmBlock := do
  eosioAssert (committer ∉ entry.confirmeds) "committer has confirmed"
  return { entry with confirmeds := entry.confirmeds ++ [committer] }

structure BlockRelayStat where
  chain : Name
  last : BlockType
  unconfirms : List UnconfirmBlock

structure MapHandler where
  chain : Name
  name : Name
  actaccount : AccountName
  actname : ActionName
  relayacc : AccountName
  account : AccountName
  data : String

/-- `handler_action`, the data of an action `on`, with the account it is sent to. -/
structure HandlerAction where
  account : AccountName
  chain : Name
  blockId : Checksum256
  act : Action
deriving DecidableEq

structure RelayTransfer where
  chain : Name
  transfer : AccountName
  deposit : Asset
  last : BlockType

structure Channel where
  chain : Name
  id : Checksum256
  depositSum : Asset
deriving DecidableEq

/-- The data of an inline action `onblock`. The action itself reads the chain and the block. -/
structure OnBlock where
  chain : Name
  block : BlockType
  actions : List Action
deriving DecidableEq

/-- The rows with one scope. The tables `channels` and `relaystat` have no other row than that of
the chain itself. The handlers stand in the order of their names. -/
structure Scope where
  channel : Option Channel := none
  relaystat : Option BlockRelayStat := none
  transfers : AccountName → Option RelayTransfer := fun _ => none
  handlers : List MapHandler := []

abbrev Tables := Name → Scope

/-- What the contract takes from its libraries. `std::sort` is not stable, so that the order of
entries with one number is its own. -/
structure Environment extends Eosiolib where
  /-- the account of the contract -/
  self : AccountName
  /-- what a digest without initializer holds -/
  unset : Checksum256
  /-- `std::sort` -/
  sort : List UnconfirmBlock → List UnconfirmBlock
  sort_perm : ∀ entries, (sort entries).Perm entries
  sort_sorted : ∀ entries, (sort entries).Pairwise fun entry later => entry.base.num ≤ later.base.num

/-- The contract as the account 1, on a host where every memo names the chain 7. -/
def Environment.bounded : Environment where
  toEosiolib := .bounded 4 7
  self := 1
  unset := 0
  sort := List.insertionSort fun entry later => entry.base.num ≤ later.base.num
  sort_perm := List.perm_insertionSort _
  sort_sorted entries := by
    have total : Std.Total fun entry later : UnconfirmBlock => entry.base.num ≤ later.base.num :=
      ⟨fun entry later => Nat.le_total entry.base.num later.base.num⟩
    have trans : IsTrans UnconfirmBlock fun entry later => entry.base.num ≤ later.base.num :=
      ⟨fun _ _ _ => Nat.le_trans⟩
    exact List.pairwise_insertionSort _ entries

def firstBlock : BlockType :=
  { producer := 9, num := 1, id := 11, previous := 10, transactionMroot := 0, actionMroot := 0 }

def secondBlock : BlockType :=
  { producer := 9, num := 2, id := 12, previous := 11, transactionMroot := 0, actionMroot := 0 }

/-- The unconfirmed blocks that can still be applied. -/
def Scope.pending (scope : Scope) : List UnconfirmBlock :=
  scope.relaystat.elim [] fun relaystat =>
    relaystat.unconfirms.filter fun entry => relaystat.last.num < entry.base.num

variable (env : Environment)

/-- `block_type{}`. -/
def Environment.nilBlock : BlockType :=
  { id := env.unset, previous := env.unset, transactionMroot := env.unset, actionMroot := env.unset }

/-! ### Deposits -/

/-- `cc.deposit_sum -= old; cc.deposit_sum += deposit`. -/
def Channel.replaceDeposit (channel : Channel) (old deposit : Asset) : Checked Channel := do
  let rest ← env.sub channel.depositSum old
  let depositSum ← env.add rest deposit
  return { channel with depositSum }

def Channel.addDeposit (channel : Channel) (deposit : Asset) : Checked Channel := do
  let depositSum ← env.add channel.depositSum deposit
  return { channel with depositSum }

def Scope.setTransfer (scope : Scope) (transfer : AccountName) (row : RelayTransfer) : Scope :=
  { scope with transfers := Function.update scope.transfers transfer (some row) }

def firstDeposit (chain : Name) (transfer : AccountName) (deposit : Asset) (channel : Channel)
    (scope : Scope) : Checked Scope := do
  let channel ← channel.addDeposit env deposit
  let row : RelayTransfer := { chain, transfer, deposit, last := env.nilBlock }
  return { scope.setTransfer transfer row with channel := some channel }

def laterDeposit (transfer : AccountName) (deposit : Asset) (it : RelayTransfer) (channel : Channel)
    (scope : Scope) : Checked Scope := do
  let covered ← Eosiolib.le it.deposit channel.depositSum
  eosioAssert covered "old deposit should <= sum"
  let channel ← channel.replaceDeposit env it.deposit deposit
  return { scope.setTransfer transfer { it with deposit } with channel := some channel }

def newTransfer (chain : Name) (transfer : AccountName) (deposit : Asset) (scope : Scope) :
    Checked Scope := do
  eosioAssert (deposit.symbol = env.coreSymbol) "deposit should core symbol"
  let nonnegative ← Eosiolib.le (env.coreAsset 0) deposit
  eosioAssert nonnegative "deposit should > 0"
  let channel ← requireRow scope.channel "channel has created"
  (scope.transfers transfer).elim (firstDeposit env chain transfer deposit channel scope)
    fun it => laterDeposit env transfer deposit it channel scope

/-- `ontransfer`, in the scope that the memo names. -/
def ontransfer (sender recipient : AccountName) (quantity : Asset) (memo : String) (scope : Scope) :
    Checked Scope :=
  if sender = env.self ∨ recipient ≠ env.self then return scope
  else if "NoProcessMemo" = memo then return scope
  else newTransfer env (env.stringToName memo) sender quantity scope

/-! ### Commits -/

/-- The confirmation of a block that has an entry: the first one with that block. -/
def confirmFirst (block : BlockType) (newConfirm : Asset) (transfer : AccountName) :
    List UnconfirmBlock → Checked (List UnconfirmBlock)
  | [] => return []
  | entry :: rest =>
    if entry.base.same block then do
      let confirmed ← UnconfirmBlock.confirmBy { entry with confirm := newConfirm } transfer
      return confirmed :: rest
    else do
      let rest ← confirmFirst block newConfirm transfer rest
      return entry :: rest

def newEntry (block : BlockType) (actions : List Action) (newConfirm : Asset)
    (transfer : AccountName) (unconfirms : List UnconfirmBlock) :
    Checked (List UnconfirmBlock) := do
  let fresh ← UnconfirmBlock.confirmBy
    { base := block, confirm := newConfirm, actions, confirmeds := [] } transfer
  return env.sort (unconfirms ++ [fresh])

def recordCommit (transfer : AccountName) (deposit : Asset) (block : BlockType)
    (actions : List Action) (unconfirms : List UnconfirmBlock) : Checked (List UnconfirmBlock) :=
  (unconfirms.find? (·.base.same block)).elim
    (newEntry env block actions deposit transfer unconfirms) fun entry => do
      let newConfirm ← env.add deposit entry.confirm
      confirmFirst block newConfirm transfer unconfirms

/-- `confirm * 3 >= deposit_sum * 2`. -/
def reachesQuorum (confirm depositSum : Asset) : Checked Bool := do
  let weight ← env.mul confirm 3
  let needed ← env.mul depositSum 2
  Eosiolib.le needed weight

def sendOnBlocks (chain : Name) (depositSum : Asset) : List UnconfirmBlock → Checked (List OnBlock)
  | [] => return []
  | entry :: rest => do
      let confirmed ← reachesQuorum env entry.confirm depositSum
      if confirmed then do
        let sent ← sendOnBlocks chain depositSum rest
        return { chain, block := entry.base, actions := entry.actions } :: sent
      else return []

/-- The part of `commit` behind the test for a block that has been applied. -/
def commitPending (chain : Name) (transfer : AccountName) (it : RelayTransfer) (block : BlockType)
    (actions : List Action) (channel : Channel) (relaystat : BlockRelayStat) (scope : Scope) :
    Checked (Scope × List OnBlock) := do
  let unconfirms ← recordCommit env transfer it.deposit block actions relaystat.unconfirms
  let sent ← sendOnBlocks env chain channel.depositSum (unconfirms.take 8)
  return ({ scope.setTransfer transfer { it with last := block } with
    relaystat := some { relaystat with unconfirms } }, sent)

def commit (actors : List AccountName) (chain : Name) (transfer : AccountName) (block : BlockType)
    (actions : List Action) (scope : Scope) : Checked (Scope × List OnBlock) := do
  requireAuth actors transfer
  let it ← requireRow (scope.transfers transfer) "no transfers"
  let deposited ← Eosiolib.lt (env.coreAsset 0) it.deposit
  eosioAssert deposited "no deposit"
  let channel ← requireRow scope.channel "no channel"
  let funded ← Eosiolib.lt (env.coreAsset 0) channel.depositSum
  eosioAssert funded "no deposit"
  let relaystat ← requireRow scope.relaystat "no relay stats"
  if ¬ relaystat.last.isNil ∧ block.num ≤ relaystat.last.num then return (scope, [])
  else commitPending env chain transfer it block actions channel relaystat scope

/-! ### Applying blocks -/

def onaction (block : BlockType) (act : Action) (handler : MapHandler) : HandlerAction :=
  { account := handler.account, chain := handler.chain, blockId := block.id, act }

def MapHandler.handles (handler : MapHandler) (act : Action) : Bool :=
  handler.actaccount = act.account ∧ handler.actname = act.name

/-- The loops of `onblockimp` over the actions and the handlers. -/
def dispatch (block : BlockType) (actions : List Action) (handlers : List MapHandler) :
    List HandlerAction :=
  actions.flatMap fun act => (handlers.filter (·.handles act)).map (onaction block act)

def onblockimp (block : BlockType) (actions : List Action) (scope : Scope) :
    Checked (Scope × List HandlerAction) := do
  eosioAssert scope.channel.isSome "channel not created"
  let relaystat ← requireRow scope.relaystat "no relay stats"
  return ({ scope with
      relaystat := some { relaystat with
        last := block
        unconfirms := relaystat.unconfirms.filter fun entry => entry.base.num ≠ block.num } },
    dispatch block actions scope.handlers)

/-- The loop of `onblock`: the first entry of the block that reaches the quorum. -/
def findConfirmed (depositSum : Asset) (block : BlockType) :
    List UnconfirmBlock → Checked (Option UnconfirmBlock)
  | [] => return none
  | entry :: rest =>
    if entry.base.same block then do
      let confirmed ← reachesQuorum env entry.confirm depositSum
      if confirmed then return some entry else findConfirmed depositSum block rest
    else findConfirmed depositSum block rest

/-- The entry that `onblock` applies. Without a row in `relaystat` it reads through `end()`. -/
def appliedEntry (actors : List AccountName) (block : BlockType) (scope : Scope) :
    Checked (Option UnconfirmBlock) := do
  requireAuth actors env.self
  let relaystat ← scope.relaystat.elim (.error ⟨.fault, "end()"⟩) Except.ok
  if block.num ≤ relaystat.last.num then return none
  else do
    let channel ← requireRow scope.channel "no channel"
    let funded ← Eosiolib.lt (env.coreAsset 0) channel.depositSum
    eosioAssert funded "no deposit"
    findConfirmed env channel.depositSum block relaystat.unconfirms

def onblock (actors : List AccountName) (block : BlockType) (scope : Scope) :
    Checked (Scope × List HandlerAction) := do
  let entry ← appliedEntry env actors block scope
  entry.elim (.ok (scope, [])) fun entry => onblockimp block entry.actions scope

def newchannel (actors : List AccountName) (chain : Name) (id : Checksum256) (scope : Scope) :
    Checked Scope := do
  requireAuth actors chain
  eosioAssert (chain ≠ 0) "chain name cannot be zero"
  eosioAssert (scope.channel = none) "channel has created"
  return { scope with
    channel := some { chain, id, depositSum := env.coreAsset 0 }
    relaystat := some { chain, last := env.nilBlock, unconfirms := [] } }

/-- `handlers.emplace` and `handlers.modify`. A handler that is there keeps its chain. -/
def setHandler (row : MapHandler) : List MapHandler → List MapHandler
  | [] => [row]
  | handler :: rest =>
    if row.name < handler.name then row :: handler :: rest
    else if row.name = handler.name then { row with chain := handler.chain } :: rest
    else handler :: setHandler row rest

/-- `newmap`; the arguments are the fields of the row. -/
def newmap (actors : List AccountName) (row : MapHandler) (scope : Scope) : Checked Scope := do
  requireAuth actors row.chain
  eosioAssert scope.channel.isSome "channel not created"
  eosioAssert (∀ handler ∈ scope.handlers,
    handler.actaccount ≠ row.actaccount ∨ handler.actname ≠ row.actname)
    "one action can only one handler"
  return { scope with handlers := setHandler row scope.handlers }

/-! ### Runs -/

inductive Call where
  | newchannel (actors : List AccountName) (chain : Name) (id : Checksum256)
  | newmap (actors : List AccountName) (row : MapHandler)
  | ontransfer (sender recipient : AccountName) (quantity : Asset) (memo : String)
  | commit (actors : List AccountName) (chain : Name) (transfer : AccountName) (block : BlockType)
      (actions : List Action)
  | onblock (actors : List AccountName) (chain : Name) (block : BlockType)

def Call.chain : Call → Name
  | .newchannel _ chain _ => chain
  | .newmap _ row => row.chain
  | .ontransfer _ _ _ memo => env.stringToName memo
  | .commit _ chain _ _ _ => chain
  | .onblock _ chain _ => chain

structure Commitment where
  account : AccountName
  block : BlockType
  actions : List Action
deriving DecidableEq

/-- A call of `onblockimp`: the handlers it found and the actions it sent. -/
structure Application where
  block : BlockType
  actions : List Action
  handlers : List MapHandler
  sent : List HandlerAction

/-- The rows of one scope, with the commits, the inline actions that they sent and the calls of
`onblockimp` so far, newest first. -/
structure Record where
  scope : Scope := {}
  commits : List Commitment := []
  sent : List OnBlock := []
  applied : List Application := []

def Record.step (record : Record) : Call → Checked Record
  | .newchannel actors chain id => do
      let scope ← newchannel env actors chain id record.scope
      return { record with scope }
  | .newmap actors row => do
      let scope ← newmap actors row record.scope
      return { record with scope }
  | .ontransfer sender recipient quantity memo => do
      let scope ← ontransfer env sender recipient quantity memo record.scope
      return { record with scope }
  | .commit actors chain account block actions => do
      let outcome ← commit env actors chain account block actions record.scope
      return { record with
        scope := outcome.1
        commits := { account, block, actions } :: record.commits
        sent := outcome.2 ++ record.sent }
  | .onblock actors _ block => do
      let entry ← appliedEntry env actors block record.scope
      let outcome ← onblock env actors block record.scope
      return { record with
        scope := outcome.1
        applied := (entry.map fun entry =>
    { block, actions := entry.actions, handlers := record.scope.handlers,
      sent := outcome.2 : Application }).toList ++ record.applied }

abbrev World := Name → Record

/-- A call that does not abort and that is allowed in the scope it is for. -/
def Step (allowed : Scope → Call → Prop) (world next : World) : Prop :=
  ∃ call record, allowed (world (call.chain env)).scope call ∧
    (world (call.chain env)).step env call = .ok record ∧
      next = Function.update world (call.chain env) record

variable {env} {allowed : Scope → Call → Prop}

/-- What every call preserves in its scope holds of every scope. -/
theorem Step.invariant {inv : Record → Prop} (initial : inv {})
    (preserved : ∀ record call next, inv record → allowed record.scope call →
      record.step env call = .ok next → inv next)
    {visited : List World} {last : World}
    (run : Library.Run (Step env allowed) (fun _ => {}) visited last) (chain : Name) :
    inv (last chain) := by
  have everywhere : ∀ chain, inv (last chain) := by
    apply @Library.Run.invariant _ _ _ last _ (fun world => ∀ chain, inv (world chain))
      (fun _ => initial) _ run
    intro current next kept taken other
    obtain ⟨call, record, permitted, stepped, rfl⟩ := taken
    by_cases same : other = call.chain env
    · subst same
      rw [Function.update_self]
      exact preserved _ _ _ (kept _) permitted stepped
    · rw [Function.update_of_ne same]
      exact kept other
  exact everywhere chain

/-- A sequence of calls, of which each is allowed and does not abort. -/
def replay (env : Environment) (allowed : Scope → Call → Prop)
    [∀ scope call, Decidable (allowed scope call)] : List Call → World → Checked World
  | [], world => .ok world
  | call :: rest, world => do
      eosioAssert (allowed (world (call.chain env)).scope call) "not allowed"
      let record ← (world (call.chain env)).step env call
      replay env allowed rest (Function.update world (call.chain env) record)

theorem run_of_replay [∀ scope call, Decidable (allowed scope call)] {calls : List Call}
    {start world last : World} {visited : List World}
    (run : Library.Run (Step env allowed) start visited world)
    (ran : replay env allowed calls world = .ok last) :
    ∃ visited, Library.Run (Step env allowed) start visited last := by
  induction calls generalizing world visited with
  | nil =>
    cases ran
    exact ⟨visited, run⟩
  | cons call rest ih =>
    obtain ⟨permitted, ran⟩ := of_assert ran
    obtain ⟨record, stepped, ranRest⟩ := of_bind ran
    exact ih (run.snoc ⟨call, record, permitted, stepped, rfl⟩) ranRest

theorem exists_run [∀ scope call, Decidable (allowed scope call)] (calls : List Call)
    {post : World → Prop} [DecidablePred post]
    (computed : (replay env allowed calls fun _ => {}).toOption.any (post ·) = true) :
    ∃ visited last, Library.Run (Step env allowed) (fun _ => {}) visited last ∧ post last := by
  cases ran : replay env allowed calls fun _ => {} with
  | ok last =>
    rw [ran] at computed
    obtain ⟨visited, run⟩ := run_of_replay .refl ran
    exact ⟨visited, last, run, of_decide_eq_true computed⟩
  | error thrown =>
    rw [ran] at computed
    cases computed

end CodexRelay.Contracts.ForceRelay
