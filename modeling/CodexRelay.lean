import CodexRelay.Chain.ActorList
import CodexRelay.Chain.AuthorityChecker.Completeness
import CodexRelay.Chain.Controller.LogFailure
import CodexRelay.Chain.Controller.ProducerSchedules
import CodexRelay.Chain.Controller.UnappliedTransactions
import CodexRelay.Chain.EosioContract.PermissionLinks
import CodexRelay.Chain.FixedKey
import CodexRelay.Chain.ForkDatabase.Persistence
import CodexRelay.Chain.HeaderState.Representation
import CodexRelay.Chain.InputTransactions
import CodexRelay.Chain.Name
import CodexRelay.Chain.ProtocolFeatureManager
import CodexRelay.Chain.RamAccounting.Runs
import CodexRelay.Chain.ResourceLimits.Billing
import CodexRelay.Chain.ResourceLimits.MovingAverage
import CodexRelay.Chain.ResourceLimits.Totals
import CodexRelay.Chain.SignatureKeys
import CodexRelay.Chain.Snapshot
import CodexRelay.Contracts.ForceRelay.Agreement
import CodexRelay.Contracts.ForceRelay.Deposits
import CodexRelay.Contracts.ForceRelay.Dispatch
import CodexRelay.Contracts.ForceRelay.Progress
import CodexRelay.Contracts.ForceSystem.Consent
import CodexRelay.Contracts.ForceSystem.Election
import CodexRelay.Contracts.ForceSystem.Mortgages
import CodexRelay.Contracts.ForceSystem.Rewards
import CodexRelay.Contracts.ForceSystem.Stakes
import CodexRelay.Contracts.RelayToken.Mining
import CodexRelay.Contracts.SysBridge.Rates
import CodexRelay.Plugins.NextBlockTime
import CodexRelay.Plugins.QueuedBuffer
import CodexRelay.Plugins.ScheduledSweep
import CodexRelay.Plugins.StateHistoryLog
