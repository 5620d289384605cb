import CodexRelay.Chain.Database
import CodexRelay.Library.OrderStatistic

/-!
Contract: the resource limits of accounts, as `resource_limits.cpp` keeps them.

Owns:
- the objects of `resource_limits_private.hpp` and the accumulator of usage;
- `initialize_account`, `set_account_limits` and `process_account_limit_updates`;
- `add_transaction_usage`, `add_pending_ram_usage` and the queries of the limits of an account.

Does not own: the limits of blocks, which `process_block_usage` adapts, and the free memory
of an account.

Amounts are natural numbers. Where an `uint128_t` can wrap, `% 2 ^ 128` is written.
-/

namespace CodexRelay.Chain

open Library

def rateLimitingPrecision : Nat := 1000 * 1000

/-- `exponential_moving_average_accumulator`. -/
structure UsageAccumulator where
  lastOrdinal : Nat := 0
  valueEx : Nat := 0
  consumed : Nat := 0

/-- `resource_limits_object`; a negative value stands for no limit. -/
structure AccountLimits where
  netWeight : Int := -1
  cpuWeight : Int := -1
  ramBytes : Int := -1

structure ResourceUsage where
  netUsage : UsageAccumulator := {}
  cpuUsage : UsageAccumulator := {}
  ramUsage : Nat := 0

structure ResourceLimitsState where
  pendingNetUsage : Nat := 0
  pendingCpuUsage : Nat := 0
  totalNetWeight : Nat := 0
  totalCpuWeight : Nat := 0
  totalRamBytes : Nat := 0
  virtualNetLimit : Nat := 0
  virtualCpuLimit : Nat := 0

/-- `resource_limits_config_object`; of the limits of a block only the maximum is read. -/
structure ResourceLimitsConfig where
  cpuLimitMax : Nat
  netLimitMax : Nat
  accountCpuUsageAverageWindow : Nat
  accountNetUsageAverageWindow : Nat

/-- `gmr_parameters`, the guaranteed minimum of resources. -/
structure GmrParameters where
  ramByte : Nat
  cpuUs : Nat
  netByte : Nat

/-- The tables of `resource_limits_manager`. The limits have the key of the index `by_owner`:
whether they are pending, and the owner. -/
structure ResourceLimits where
  limits : AList fun _ : Bool × AccountName => AccountLimits
  usage : AList fun _ : AccountName => ResourceUsage
  state : ResourceLimitsState
  config : ResourceLimitsConfig
  gmr : GmrParameters

namespace ResourceLimits

/-- `initialize_database`: the virtual limits begin at the maxima of a block. -/
def initializeDatabase (config : ResourceLimitsConfig) (gmr : GmrParameters) : ResourceLimits where
  limits := ∅
  usage := ∅
  state := { virtualCpuLimit := config.cpuLimitMax, virtualNetLimit := config.netLimitMax }
  config
  gmr

/-! ### Limits of accounts -/

variable (manager : ResourceLimits)

def initializeAccount (account : AccountName) : Checked ResourceLimits := do
  let limits ← Database.create manager.limits (false, account) {}
  let usage ← Database.create manager.usage account {}
  return { manager with limits, usage }

/-- `find_or_create_pending_limits` of `set_account_limits`. -/
def findOrCreatePendingLimits (account : AccountName) : Checked AccountLimits :=
  match manager.limits.lookup (true, account) with
  | some pendingLimits => .ok pendingLimits
  | none => Database.get manager.limits (false, account)

/-- `set_account_limits`. The result says whether the memory was decreased. -/
def setAccountLimits (account : AccountName)
    (ramBytes netWeight cpuWeight : Int) : Checked (Bool × ResourceLimits) := do
  let limits ← manager.findOrCreatePendingLimits account
  let decreasedLimit := decide (0 ≤ ramBytes ∧ (limits.ramBytes < 0 ∨ ramBytes < limits.ramBytes))
  return (decreasedLimit, { manager with
    limits := manager.limits.insert (true, account) ⟨netWeight, cpuWeight, ramBytes⟩ })

def underflowWhenReverting : ChainException :=
  ⟨.rateLimitingStateInconsistent, "underflow when reverting old value to ${which}"⟩

def overflowWhenApplying : ChainException :=
  ⟨.rateLimitingStateInconsistent, "overflow when applying new value to ${which}"⟩

/-- The first half of `update_state_and_value`: the old value is taken out of the total. -/
def revertOldValue (total : Nat) (value : Int) : Checked Nat :=
  if 0 < value then
    if value.toNat ≤ total then .ok (total - value.toNat) else .error underflowWhenReverting
  else .ok total

def applyNewValue (total : Nat) (pendingValue : Int) : Checked Nat :=
  if 0 < pendingValue then
    if pendingValue.toNat ≤ 2 ^ 64 - 1 - total then .ok (total + pendingValue.toNat)
    else .error overflowWhenApplying
  else .ok total

/-- `update_state_and_value` of `process_account_limit_updates`: the new total. -/
def updateStateAndValue (total : Nat) (value pendingValue : Int) : Checked Nat := do
  let total ← revertOldValue total value
  applyNewValue total pendingValue

/-- One round of `process_account_limit_updates`: the pending limits of an account become its
limits. -/
def collapsePending (owner : AccountName) (pending : AccountLimits) : Checked ResourceLimits := do
  let actual ← Database.get manager.limits (false, owner)
  let totalRamBytes ←
    updateStateAndValue manager.state.totalRamBytes actual.ramBytes pending.ramBytes
  let totalCpuWeight ←
    updateStateAndValue manager.state.totalCpuWeight actual.cpuWeight pending.cpuWeight
  let totalNetWeight ←
    updateStateAndValue manager.state.totalNetWeight actual.netWeight pending.netWeight
  return { manager with
    limits := (manager.limits.insert (false, owner) pending).erase (true, owner)
    state := { manager.state with totalRamBytes, totalCpuWeight, totalNetWeight } }

def pendingOwners : List AccountName :=
  (manager.limits.keys.filter (·.1)).map (·.2)

/-- The loop of `process_account_limit_updates`, which takes the pending limits with the least
owner until there are none. -/
def processLoop : (fuel : Nat) → ResourceLimits → Checked ResourceLimits
  | 0, manager => .ok manager
  | fuel + 1, manager =>
    match firstBy (· < ·) manager.pendingOwners with
    | none => .ok manager
    | some owner => do
        let pending ← Database.get manager.limits (true, owner)
        let manager ← manager.collapsePending owner pending
        processLoop fuel manager

def processAccountLimitUpdates : Checked ResourceLimits :=
  processLoop manager.pendingOwners.length manager

/-- `get_account_limits`: the weights for net and cpu. -/
def getAccountLimits (account : AccountName) : Checked (Int × Int) :=
  match manager.limits.lookup (true, account) with
  | some pending => .ok (pending.netWeight, pending.cpuWeight)
  | none => do
      let limits ← Database.get manager.limits (false, account)
      return (limits.netWeight, limits.cpuWeight)

end ResourceLimits

/-! ### Usage -/

def integerDivideCeil (num den : Nat) : Nat := num / den + if 0 < num % den then 1 else 0

/-- `downgrade_cast`, to a type with this maximum. -/
def downgradeCast (maximum value : Nat) : Checked Nat := do
  eosAssert (value ≤ maximum) .rateLimitingStateInconsistent
    "Casting a higher bit integer value ${v} to a lower bit integer value which cannot contain the value, valid range is [${min}, ${max}]"
  return value

namespace UsageAccumulator

def maxRawValue : Nat := (2 ^ 64 - 1) / rateLimitingPrecision

def mulRatio (value numerator denominator : Nat) : Checked Nat := do
  eosAssert (numerator = 0 ∨ value ≤ (2 ^ 64 - 1) / numerator) .rateLimitingStateInconsistent
    "Usage exceeds maximum value representable after extending for precision"
  return value * numerator / denominator

def decayed (accumulator : UsageAccumulator) (ordinal windowSize : Nat) : Checked Nat :=
  if ordinal < accumulator.lastOrdinal + windowSize then
    mulRatio accumulator.valueEx (windowSize - (ordinal - accumulator.lastOrdinal)) windowSize
  else .ok 0

/-- The part of `add` that moves the accumulator to the ordinal. -/
def advance (accumulator : UsageAccumulator) (ordinal windowSize : Nat) :
    Checked UsageAccumulator :=
  if accumulator.lastOrdinal ≠ ordinal then do
    eosAssert (accumulator.lastOrdinal < ordinal) .resourceLimitException
      "new ordinal cannot be less than the previous ordinal"
    let valueEx ← accumulator.decayed ordinal windowSize
    return ⟨ordinal, valueEx, integerDivideCeil valueEx rateLimitingPrecision⟩
  else return accumulator

def add (accumulator : UsageAccumulator) (units ordinal windowSize : Nat) :
    Checked UsageAccumulator := do
  eosAssert (units ≤ maxRawValue) .rateLimitingStateInconsistent
    "Usage exceeds maximum value representable after extending for precision"
  eosAssert (units ≤ 2 ^ 64 - 1 - accumulator.consumed) .rateLimitingStateInconsistent
    "Overflow in tracked usage when adding usage!"
  let valueExContrib ←
    downgradeCast (2 ^ 64 - 1) (integerDivideCeil (units * rateLimitingPrecision) windowSize)
  eosAssert (valueExContrib ≤ 2 ^ 64 - 1 - accumulator.valueEx) .rateLimitingStateInconsistent
    "Overflow in accumulated value when adding usage!"
  let advanced ← accumulator.advance ordinal windowSize
  return { advanced with
    consumed := advanced.consumed + units
    valueEx := advanced.valueEx + valueExContrib }

end UsageAccumulator

/-- The account's share of the capacity in a window, with what is guaranteed to it. -/
def maxUserUseInWindow (virtualLimit windowSize userWeight allUserWeight guaranteed : Nat) : Nat :=
  (virtualLimit * windowSize * userWeight % 2 ^ 128 / allUserWeight + guaranteed) % 2 ^ 128

structure AccountResourceLimit where
  used : Int
  available : Int
  max : Int

def availableInWindow (maxUserUse usedInWindow : Nat) : Checked Nat :=
  if maxUserUse ≤ usedInWindow then .ok 0
  else downgradeCast (2 ^ 63 - 1) (maxUserUse - usedInWindow)

/-- The limit of an account that has a weight, as both `get_account_cpu_limit_ex` and
`get_account_net_limit_ex` compute it. -/
def limitInWindow (maxUserUse valueEx windowSize : Nat) : Checked AccountResourceLimit := do
  let usedInWindow := integerDivideCeil (valueEx * windowSize) rateLimitingPrecision
  let available ← availableInWindow maxUserUse usedInWindow
  let used ← downgradeCast (2 ^ 63 - 1) usedInWindow
  let max ← downgradeCast (2 ^ 63 - 1) maxUserUse
  return ⟨used, available, max⟩

/-- One of the two checks of `add_transaction_usage` on the accumulated value of an account. -/
def checkUsedInWindow (maxUserUse valueEx windowSize : Nat) (code : ExceptionCode) (what : String) :
    Checked Unit :=
  eosAssert (valueEx * windowSize / rateLimitingPrecision ≤ maxUserUse) code what

namespace ResourceLimits

variable (manager : ResourceLimits)

def getAccountCpuLimitEx (name : AccountName) : Checked AccountResourceLimit := do
  let usage ← Database.get manager.usage name
  let (_, cpuWeight) ← manager.getAccountLimits name
  if cpuWeight < 0 ∨ manager.state.totalCpuWeight = 0 then return ⟨-1, -1, -1⟩
  else
    let window := manager.config.accountCpuUsageAverageWindow
    limitInWindow
      (maxUserUseInWindow manager.state.virtualCpuLimit window cpuWeight.toNat
        manager.state.totalCpuWeight manager.gmr.cpuUs)
      usage.cpuUsage.valueEx window

def getAccountNetLimitEx (name : AccountName) : Checked AccountResourceLimit := do
  let usage ← Database.get manager.usage name
  let (netWeight, _) ← manager.getAccountLimits name
  if netWeight < 0 ∨ manager.state.totalNetWeight = 0 then return ⟨-1, -1, -1⟩
  else
    let window := manager.config.accountNetUsageAverageWindow
    limitInWindow
      (maxUserUseInWindow manager.state.virtualNetLimit window netWeight.toNat
        manager.state.totalNetWeight manager.gmr.netByte)
      usage.netUsage.valueEx window

def getAccountCpuLimit (name : AccountName) : Checked Int :=
  (manager.getAccountCpuLimitEx name).map (·.available)

def getAccountNetLimit (name : AccountName) : Checked Int :=
  (manager.getAccountNetLimitEx name).map (·.available)

/-- The check of `add_transaction_usage` on the cpu usage of an account. -/
def checkCpuUsage (cpuWeight : Int) (valueEx : Nat) : Checked Unit :=
  if 0 ≤ cpuWeight ∧ 0 < manager.state.totalCpuWeight then
    let window := manager.config.accountCpuUsageAverageWindow
    checkUsedInWindow
      (maxUserUseInWindow manager.state.virtualCpuLimit window cpuWeight.toNat
        manager.state.totalCpuWeight manager.gmr.cpuUs)
      valueEx window .txCpuUsageExceeded
      "authorizing account '${n}' has insufficient cpu resources for this transaction"
  else .ok ()

/-- The check on the net usage, which guarantees `gmr.cpu_us` as well. -/
def checkNetUsage (netWeight : Int) (valueEx : Nat) : Checked Unit :=
  if 0 ≤ netWeight ∧ 0 < manager.state.totalNetWeight then
    let window := manager.config.accountNetUsageAverageWindow
    checkUsedInWindow
      (maxUserUseInWindow manager.state.virtualNetLimit window netWeight.toNat
        manager.state.totalNetWeight manager.gmr.cpuUs)
      valueEx window .txNetUsageExceeded
      "authorizing account '${n}' has insufficient net resources for this transaction"
  else .ok ()

/-- One round of the loop of `add_transaction_usage`. -/
def billAccount (cpuUsage netUsage timeSlot : Nat) (manager : ResourceLimits) (a : AccountName) :
    Checked ResourceLimits := do
  let usage ← Database.get manager.usage a
  let (netWeight, cpuWeight) ← manager.getAccountLimits a
  let net ← usage.netUsage.add netUsage timeSlot manager.config.accountNetUsageAverageWindow
  let cpu ← usage.cpuUsage.add cpuUsage timeSlot manager.config.accountCpuUsageAverageWindow
  manager.checkCpuUsage cpuWeight cpu.valueEx
  manager.checkNetUsage netWeight net.valueEx
  return { manager with
    usage := manager.usage.insert a { usage with netUsage := net, cpuUsage := cpu } }

def addTransactionUsage (accounts : List AccountName)
    (cpuUsage netUsage timeSlot : Nat) : Checked ResourceLimits := do
  let billed ← accounts.foldlM (billAccount cpuUsage netUsage timeSlot) manager
  let pendingCpuUsage := (billed.state.pendingCpuUsage + cpuUsage) % 2 ^ 64
  let pendingNetUsage := (billed.state.pendingNetUsage + netUsage) % 2 ^ 64
  eosAssert (pendingCpuUsage ≤ billed.config.cpuLimitMax) .blockResourceExhausted
    "Block has insufficient cpu resources"
  eosAssert (pendingNetUsage ≤ billed.config.netLimitMax) .blockResourceExhausted
    "Block has insufficient net resources"
  return { billed with state := { billed.state with pendingCpuUsage, pendingNetUsage } }

def addPendingRamUsage (account : AccountName) (ramDelta : Int) : Checked ResourceLimits := do
  if ramDelta = 0 then return manager
  let usage ← Database.get manager.usage account
  eosAssert (ramDelta ≤ 0 ∨ ramDelta.toNat ≤ 2 ^ 64 - 1 - usage.ramUsage) .transactionException
    "Ram usage delta would overflow UINT64_MAX"
  eosAssert (0 ≤ ramDelta ∨ (-ramDelta).toNat ≤ usage.ramUsage) .transactionException
    "Ram usage delta would underflow UINT64_MAX"
  return { manager with
    usage := manager.usage.insert account
      { usage with ramUsage := (usage.ramUsage + ramDelta).toNat } }

end ResourceLimits

end CodexRelay.Chain
