import CodexRelay.Chain.ResourceLimits.Model
import CodexRelay.Library.KeyedSum
import CodexRelay.Library.Run

/-!
Contract: the totals of the resource limits.

Owns:
- the calls that change the limits of accounts, and their runs;
- that each total is the sum of the positive limits of the accounts, pending limits left out,
  so that reverting a limit does not underflow.
-/

namespace CodexRelay.Chain.ResourceLimits

open Library List AList

variable {manager manager' : ResourceLimits}

variable {owner : AccountName}

variable {pending : AccountLimits} {fuel : Nat} {account : AccountName}

/-! ### The invariant -/

def committed (value : AccountLimits → Int) (key : Bool × AccountName) (limits : AccountLimits) :
    Nat :=
  if key.1 then 0 else (value limits).toNat

def committedSum (value : AccountLimits → Int) (manager : ResourceLimits) : Nat :=
  rowSum (committed value) manager.limits

/-- The totals are the sums, and pending limits belong to accounts. -/
structure Balanced (manager : ResourceLimits) : Prop where
  ram : manager.state.totalRamBytes = manager.committedSum (·.ramBytes)
  cpu : manager.state.totalCpuWeight = manager.committedSum (·.cpuWeight)
  net : manager.state.totalNetWeight = manager.committedSum (·.netWeight)
  owned : ∀ account pending, manager.limits.lookup (true, account) = some pending →
    ∃ actual, manager.limits.lookup (false, account) = some actual

/-! ### One round of the loop -/

theorem revertOldValue_eq (rest : Nat) (value : Int) :
    revertOldValue (rest + value.toNat) value = .ok rest := by
  unfold revertOldValue
  split_ifs
  · rw [Nat.add_sub_cancel]
  · omega
  · rw [Int.toNat_of_nonpos (by omega), Nat.add_zero]

theorem applyNewValue_spec (rest : Nat) (pendingValue : Int) :
    applyNewValue rest pendingValue = .ok (rest + pendingValue.toNat) ∨
      applyNewValue rest pendingValue = .error overflowWhenApplying := by
  unfold applyNewValue
  split_ifs
  · exact .inl rfl
  · exact .inr rfl
  · rw [Int.toNat_of_nonpos (by omega), Nat.add_zero]
    exact .inl rfl

/-- A total that contains the old value is updated to contain the new one instead, or
overflows. -/
theorem updateStateAndValue_spec (rest : Nat) (value pendingValue : Int) :
    updateStateAndValue (rest + value.toNat) value pendingValue = .ok (rest + pendingValue.toNat) ∨
      updateStateAndValue (rest + value.toNat) value pendingValue = .error overflowWhenApplying := by
  unfold updateStateAndValue
  rw [revertOldValue_eq]
  exact applyNewValue_spec rest pendingValue

theorem committedSum_collapse (value : AccountLimits → Int) {actual : AccountLimits}
    (found : manager.limits.lookup (false, owner) = some actual) (pending : AccountLimits) :
    ∃ rest, manager.committedSum value = rest + (value actual).toNat ∧
      rowSum (committed value) ((manager.limits.insert (false, owner) pending).erase (true, owner)) =
        rest + (value pending).toNat := by
  have inserted := rowSum_insert (committed value) manager.limits (false, owner) pending
  have before := rowAt_of_lookup (committed value) found
  have contained := rowAt_le_rowSum (committed value) manager.limits (false, owner)
  have erased := rowSum_erase (committed value) (manager.limits.insert (false, owner) pending)
    (true, owner)
  have nothing : rowAt (committed value) (manager.limits.insert (false, owner) pending)
      (true, owner) = 0 := by
    unfold rowAt
    cases (manager.limits.insert (false, owner) pending).lookup (true, owner) <;> rfl
  simp only [committed, Bool.false_eq_true, if_false] at before inserted
  refine ⟨manager.committedSum value - (value actual).toNat, ?_, ?_⟩
  · unfold committedSum
    omega
  · unfold committedSum
    omega

theorem Balanced.collapsePending (balanced : manager.Balanced)
    (isPending : manager.limits.lookup (true, owner) = some pending) :
    (∃ manager', manager.collapsePending owner pending = .ok manager' ∧ manager'.Balanced) ∨
      manager.collapsePending owner pending = .error overflowWhenApplying := by
  obtain ⟨actual, found⟩ := balanced.owned owner pending isPending
  obtain ⟨restRam, ramBefore, ramAfter⟩ := committedSum_collapse (·.ramBytes) found pending
  obtain ⟨restCpu, cpuBefore, cpuAfter⟩ := committedSum_collapse (·.cpuWeight) found pending
  obtain ⟨restNet, netBefore, netAfter⟩ := committedSum_collapse (·.netWeight) found pending
  have got : Database.get manager.limits (false, owner) = .ok actual := Database.get_eq_ok.mpr found
  unfold ResourceLimits.collapsePending
  rw [got, ok_bind, balanced.ram, balanced.cpu, balanced.net, ramBefore, cpuBefore, netBefore]
  rcases updateStateAndValue_spec restRam actual.ramBytes pending.ramBytes with ram | ram
  case inr =>
    rw [ram, error_bind]
    exact .inr rfl
  rcases updateStateAndValue_spec restCpu actual.cpuWeight pending.cpuWeight with cpu | cpu
  case inr =>
    rw [ram, ok_bind, cpu, error_bind]
    exact .inr rfl
  rcases updateStateAndValue_spec restNet actual.netWeight pending.netWeight with net | net
  case inr =>
    rw [ram, ok_bind, cpu, ok_bind, net, error_bind]
    exact .inr rfl
  rw [ram, ok_bind, cpu, ok_bind, net, ok_bind]
  refine .inl ⟨_, rfl, ⟨ramAfter.symm, cpuAfter.symm, netAfter.symm, ?_⟩⟩
  intro account other isPending'
  dsimp only at isPending' ⊢
  have different : (true, account) ≠ (true, owner) := by
    intro same
    rw [same, lookup_erase] at isPending'
    cases isPending'
  rw [lookup_erase_ne different, lookup_insert_ne (by simp)] at isPending'
  rw [lookup_erase_ne (by simp)]
  by_cases same : account = owner
  · subst same
    exact ⟨pending, lookup_insert _⟩
  · rw [lookup_insert_ne (by simpa using same)]
    exact balanced.owned account other isPending'

theorem lookup_of_mem_pendingOwners (member : owner ∈ manager.pendingOwners) :
    ∃ pending, manager.limits.lookup (true, owner) = some pending := by
  obtain ⟨⟨flag, name⟩, keyMem, rfl⟩ := mem_map.mp member
  obtain ⟨inKeys, isTrue⟩ := mem_filter.mp keyMem
  obtain rfl : flag = true := isTrue
  exact Option.isSome_iff_exists.mp (lookup_isSome.mpr inKeys)

theorem Balanced.processLoop (balanced : manager.Balanced) :
    (∃ manager', processLoop fuel manager = .ok manager' ∧ manager'.Balanced) ∨
      processLoop fuel manager = .error overflowWhenApplying := by
  induction fuel generalizing manager with
  | zero => exact .inl ⟨manager, rfl, balanced⟩
  | succ fuel ih =>
    unfold ResourceLimits.processLoop
    cases least : firstBy (· < ·) manager.pendingOwners with
    | none => exact .inl ⟨manager, rfl, balanced⟩
    | some owner =>
      obtain ⟨pending, isPending⟩ := lookup_of_mem_pendingOwners (firstBy_mem least)
      dsimp only
      rw [Database.get_eq_ok.mpr isPending, ok_bind]
      rcases balanced.collapsePending isPending with ⟨collapsed, ran, after⟩ | thrown
      · rw [ran, ok_bind]
        exact ih after
      · rw [thrown, error_bind]
        exact .inr rfl

/-! ### The loop comes to its end -/

def countPending (key : Bool × AccountName) (_ : AccountLimits) : Nat := if key.1 then 1 else 0

theorem pendingOwners_length :
    manager.pendingOwners.length = rowSum countPending manager.limits := by
  unfold pendingOwners rowSum AList.keys
  rw [length_map]
  induction manager.limits.entries with
  | nil => rfl
  | cons row rows ih =>
    obtain ⟨⟨flag, owner⟩, limits⟩ := row
    rw [map_cons, sum_cons, ← ih]
    cases flag with
    | true => exact Nat.add_comm _ 1
    | false => exact (Nat.zero_add _).symm

theorem pendingOwners_collapse (member : owner ∈ manager.pendingOwners)
    (ran : manager.collapsePending owner pending = .ok manager') :
    manager'.pendingOwners.length + 1 = manager.pendingOwners.length := by
  have limits : manager'.limits =
      (manager.limits.insert (false, owner) pending).erase (true, owner) := by
    unfold ResourceLimits.collapsePending at ran
    obtain ⟨_, -, ran⟩ := of_bind ran
    obtain ⟨_, -, ran⟩ := of_bind ran
    obtain ⟨_, -, ran⟩ := of_bind ran
    obtain ⟨_, -, ran⟩ := of_bind ran
    rw [← Except.ok.inj ran]
  obtain ⟨row, found⟩ := lookup_of_mem_pendingOwners member
  have inserted := rowSum_insert countPending manager.limits (false, owner) pending
  have erased := rowSum_erase countPending (manager.limits.insert (false, owner) pending)
    (true, owner)
  have unpending : rowAt countPending manager.limits (false, owner) = 0 := by
    unfold rowAt
    cases manager.limits.lookup (false, owner) <;> rfl
  have isPending : rowAt countPending (manager.limits.insert (false, owner) pending)
      (true, owner) = 1 := by
    have still : (manager.limits.insert (false, owner) pending).lookup (true, owner) = some row := by
      rw [lookup_insert_ne (by simp), found]
    exact rowAt_of_lookup countPending still
  rw [unpending] at inserted
  rw [isPending] at erased
  rw [pendingOwners_length, pendingOwners_length, limits, erased]
  exact inserted

theorem processLoop_pendingOwners (enough : manager.pendingOwners.length ≤ fuel)
    (ran : processLoop fuel manager = .ok manager') : manager'.pendingOwners = [] := by
  induction fuel generalizing manager with
  | zero =>
    obtain rfl := Except.ok.inj ran
    exact eq_nil_of_length_eq_zero (Nat.le_zero.mp enough)
  | succ fuel ih =>
    unfold ResourceLimits.processLoop at ran
    cases least : firstBy (· < ·) manager.pendingOwners with
    | none =>
      rw [least] at ran
      obtain rfl := Except.ok.inj ran
      exact firstBy_eq_none.mp least
    | some owner =>
      rw [least] at ran
      obtain ⟨pending, -, ran⟩ := of_bind ran
      obtain ⟨collapsed, round, ran⟩ := of_bind ran
      have fewer := pendingOwners_collapse (firstBy_mem least) round
      exact ih (by omega) ran

/-! ### Runs -/

inductive Call where
  | initializeAccount (account : AccountName)
  | setAccountLimits (account : AccountName) (ramBytes netWeight cpuWeight : Int)
  | processAccountLimitUpdates

def Call.run (manager : ResourceLimits) : Call → Checked ResourceLimits
  | .initializeAccount account => manager.initializeAccount account
  | .setAccountLimits account ramBytes netWeight cpuWeight =>
    (manager.setAccountLimits account ramBytes netWeight cpuWeight).map (·.2)
  | .processAccountLimitUpdates => manager.processAccountLimitUpdates

/-- A call that does not throw; one that throws is undone. -/
def Step (manager manager' : ResourceLimits) : Prop := ∃ call : Call, call.run manager = .ok manager'

section

variable (balanced : manager.Balanced)

include balanced

theorem Balanced.initializeAccount (ran : manager.initializeAccount account = .ok manager')
    : manager'.Balanced := by
  unfold ResourceLimits.initializeAccount at ran
  obtain ⟨limits, created, ran⟩ := of_bind ran
  obtain ⟨usage, -, ran⟩ := of_bind ran
  obtain rfl := Except.ok.inj ran
  obtain ⟨fresh, rfl⟩ := Database.create_eq_ok.mp created
  have same : ∀ value : AccountLimits → Int, value {} = -1 →
      rowSum (committed value) (manager.limits.insert (false, account) {}) =
        manager.committedSum value := by
    intro value unlimited
    have inserted := rowSum_insert (committed value) manager.limits (false, account) {}
    rw [rowAt_of_none _ fresh] at inserted
    simp only [committed, Bool.false_eq_true, if_false, unlimited] at inserted
    exact inserted
  refine ⟨?_, ?_, ?_, ?_⟩
  · exact balanced.ram.trans (same _ rfl).symm
  · exact balanced.cpu.trans (same _ rfl).symm
  · exact balanced.net.trans (same _ rfl).symm
  · intro other pending isPending
    dsimp only at isPending ⊢
    rw [lookup_insert_ne (by simp)] at isPending
    by_cases own : other = account
    · subst own
      exact ⟨_, lookup_insert _⟩
    · rw [lookup_insert_ne (by simpa using own)]
      exact balanced.owned other pending isPending

theorem Balanced.setAccountLimits {ramBytes netWeight cpuWeight : Int} {decreased : Bool}
    (ran : manager.setAccountLimits account ramBytes netWeight cpuWeight = .ok (decreased, manager')) :
    manager'.Balanced := by
  unfold ResourceLimits.setAccountLimits at ran
  obtain ⟨limits, foundOrCreated, ran⟩ := of_bind ran
  obtain ⟨-, rfl⟩ := Prod.mk.inj (Except.ok.inj ran)
  have same : ∀ value : AccountLimits → Int, rowSum (committed value)
        (manager.limits.insert (true, account) ⟨netWeight, cpuWeight, ramBytes⟩) =
        manager.committedSum value := by
    intro value
    have inserted := rowSum_insert (committed value) manager.limits (true, account)
      ⟨netWeight, cpuWeight, ramBytes⟩
    have nothing : rowAt (committed value) manager.limits (true, account) = 0 := by
      unfold rowAt
      cases manager.limits.lookup (true, account) <;> rfl
    simp only [committed, if_true, nothing] at inserted
    exact inserted
  refine ⟨balanced.ram.trans (same _).symm, balanced.cpu.trans (same _).symm,
    balanced.net.trans (same _).symm, ?_⟩
  intro other pending isPending
  dsimp only at isPending ⊢
  rw [lookup_insert_ne (by simp)]
  by_cases own : other = account
  · subst own
    unfold findOrCreatePendingLimits at foundOrCreated
    split at foundOrCreated
    case h_1 before found => exact balanced.owned _ _ found
    case h_2 => exact ⟨limits, Database.get_eq_ok.mp foundOrCreated⟩
  · rw [lookup_insert_ne (by simpa using own)] at isPending
    exact balanced.owned other pending isPending

theorem Balanced.step (step : Step manager manager') : manager'.Balanced := by
  obtain ⟨call, ran⟩ := step
  cases call with
  | initializeAccount account => exact balanced.initializeAccount ran
  | setAccountLimits account ramBytes netWeight cpuWeight =>
    change (manager.setAccountLimits account ramBytes netWeight cpuWeight).map (·.2) = _ at ran
    cases result : manager.setAccountLimits account ramBytes netWeight cpuWeight with
    | error thrown =>
      rw [result] at ran
      cases ran
    | ok value =>
      rw [result] at ran
      obtain rfl := Except.ok.inj ran
      exact balanced.setAccountLimits result
  | processAccountLimitUpdates =>
    rcases balanced.processLoop with ⟨after, looped, balancedAfter⟩ | thrown
    · obtain rfl := Except.ok.inj (looped.symm.trans ran)
      exact balancedAfter
    · rw [Call.run, processAccountLimitUpdates, thrown] at ran
      cases ran

end

/-- The totals are the sums of the positive limits that are not pending, an account has at most
one pending row, and processing them never finds an underflow and leaves none. -/
structure TotalsRight (manager : ResourceLimits) : Prop where
  ram : manager.state.totalRamBytes = manager.committedSum (·.ramBytes)
  cpu : manager.state.totalCpuWeight = manager.committedSum (·.cpuWeight)
  net : manager.state.totalNetWeight = manager.committedSum (·.netWeight)
  onePending : ∀ account, manager.limits.keys.count (true, account) ≤ 1
  noUnderflow : manager.processAccountLimitUpdates ≠ .error underflowWhenReverting
  processed : ∀ manager', manager.processAccountLimitUpdates = .ok manager' →
    manager'.pendingOwners = []

/-- **The totals are right** after every run of calls on a new database. -/
theorem totalsRight_of_run {config : ResourceLimitsConfig} {gmr : GmrParameters}
    {visited : List ResourceLimits} {last : ResourceLimits}
    (run : Run Step (initializeDatabase config gmr) visited last) : last.TotalsRight := by
  have balanced : last.Balanced := by
    induction run with
    | refl => exact ⟨rfl, rfl, rfl, fun _ _ isPending => by cases isPending⟩
    | snoc _ step ih => exact ih.step step
  refine ⟨balanced.ram, balanced.cpu, balanced.net, fun account => ?_, ?_,
    fun manager' ran => processLoop_pendingOwners le_rfl ran⟩
  · exact nodup_iff_count_le_one.mp last.limits.keys_nodup _
  · rcases balanced.processLoop with ⟨after, looped, -⟩ | thrown
    · rw [processAccountLimitUpdates, looped]
      simp
    · rw [processAccountLimitUpdates, thrown]
      exact fun same => absurd (Except.error.inj same) (by decide)

def oneAccount : ResourceLimits :=
  { initializeDatabase ⟨1000, 1000, 10, 10⟩ ⟨0, 1, 1⟩ with
    limits := AList.insert (false, 1) {} ∅
    usage := AList.insert 1 {} ∅ }

def limitedAccount : ResourceLimits :=
  { oneAccount with limits := oneAccount.limits.insert (true, 1) ⟨7, -1, 5⟩ }

def processedAccount : ResourceLimits :=
  { limitedAccount with
    limits := (limitedAccount.limits.insert (false, 1) ⟨7, -1, 5⟩).erase (true, 1)
    state := { limitedAccount.state with totalRamBytes := 5, totalNetWeight := 7 } }

theorem totalsRight_processedAccount : processedAccount.TotalsRight := by
  have created : Step (initializeDatabase ⟨1000, 1000, 10, 10⟩ ⟨0, 1, 1⟩) oneAccount :=
    ⟨.initializeAccount 1, rfl⟩
  have limited : Step oneAccount limitedAccount := ⟨.setAccountLimits 1 5 7 (-1), rfl⟩
  have processed : Step limitedAccount processedAccount := ⟨.processAccountLimitUpdates, rfl⟩
  exact totalsRight_of_run (.snoc (.snoc (.snoc .refl created) limited) processed)

end CodexRelay.Chain.ResourceLimits
