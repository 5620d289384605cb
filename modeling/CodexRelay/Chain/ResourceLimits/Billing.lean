import CodexRelay.Chain.ResourceLimits.Model

/-!
Contract: when the billing of a transaction fails.

Owns:
- the rounding of the limit query against the rounding of the billing;
- when usage within the limits is billed without an exception: the check on net usage
  guarantees `gmr.cpu_us` where the query guarantees `gmr.net_byte`, and an account can be over
  its limits already.
-/

namespace CodexRelay.Chain

open List

variable {den windowSize valueEx units : Nat}

variable {limit : AccountResourceLimit} {queried allowed : Nat} {billed : ResourceLimits}

/-! ### Rounding -/

theorem integerDivideCeil_mul (num : Nat) (positive : 0 < den) :
    num ≤ integerDivideCeil num den * den ∧ integerDivideCeil num den * den ≤ num + (den - 1) := by
  have split := Nat.div_add_mod num den
  have remainder := Nat.mod_lt num positive
  unfold integerDivideCeil
  rw [Nat.add_mul, Nat.mul_comm (num / den)]
  split_ifs with rounds <;> omega

theorem integerDivideCeil_le (num : Nat) (positive : 0 < den) :
    integerDivideCeil num den ≤ num := by
  unfold integerDivideCeil
  have quotient := Nat.div_le_self num den
  split_ifs with rounds
  · have split := Nat.div_add_mod num den
    rcases Nat.eq_or_lt_of_le positive with one | large
    · rw [← one, Nat.mod_one] at rounds
      exact absurd rounds (lt_irrefl 0)
    · have smaller : 2 * (num / den) ≤ den * (num / den) := Nat.mul_le_mul_right _ large
      omega
  · exact quotient

@[simp] theorem integerDivideCeil_zero (den : Nat) : integerDivideCeil 0 den = 0 := by
  simp [integerDivideCeil]

/-- What is billed, rounded up to the precision and down to units again, is at most what was
used, rounded up, and the new units. -/
theorem usedInWindow_le (valueEx units : Nat) (positive : 0 < windowSize)
    (narrow : windowSize ≤ rateLimitingPrecision) :
    (valueEx + integerDivideCeil (units * rateLimitingPrecision) windowSize) * windowSize /
        rateLimitingPrecision ≤
      units + integerDivideCeil (valueEx * windowSize) rateLimitingPrecision := by
  have precise : 0 < rateLimitingPrecision := by decide
  have billed := (integerDivideCeil_mul (units * rateLimitingPrecision) positive).2
  have used := (integerDivideCeil_mul (valueEx * windowSize) precise).1
  generalize integerDivideCeil (units * rateLimitingPrecision) windowSize = contribution at *
  generalize integerDivideCeil (valueEx * windowSize) rateLimitingPrecision = before at *
  refine Nat.lt_succ_iff.mp ((Nat.div_lt_iff_lt_mul precise).mpr ?_)
  rw [Nat.succ_eq_add_one, Nat.add_mul, Nat.add_mul, Nat.add_mul, Nat.one_mul]
  omega

theorem limitInWindow_available_nonneg {maxUserUse : Nat}
    (asked : limitInWindow maxUserUse valueEx windowSize = .ok limit) : 0 ≤ limit.available := by
  unfold limitInWindow at asked
  obtain ⟨available, -, asked⟩ := of_bind asked
  obtain ⟨used, -, asked⟩ := of_bind asked
  obtain ⟨max, -, asked⟩ := of_bind asked
  obtain rfl := Except.ok.inj asked
  exact Int.natCast_nonneg available

/-- Units within the limit that was queried pass the check exactly when no units do, if the
check allows at least as much as the query. -/
theorem check_iff_of_available (positive : 0 < windowSize)
    (narrow : windowSize ≤ rateLimitingPrecision) (covers : queried < 2 ^ 63 → queried ≤ allowed)
    (asked : limitInWindow queried valueEx windowSize = .ok limit)
    (within : (units : Int) ≤ limit.available) :
    (valueEx + integerDivideCeil (units * rateLimitingPrecision) windowSize) * windowSize /
        rateLimitingPrecision ≤ allowed ↔
      valueEx * windowSize / rateLimitingPrecision ≤ allowed := by
  constructor
  · refine le_trans (Nat.div_le_div_right (Nat.mul_le_mul_right _ (Nat.le_add_right _ _)))
  · intro before
    have rounded := usedInWindow_le valueEx units positive narrow
    unfold limitInWindow at asked
    obtain ⟨available, isAvailable, asked⟩ := of_bind asked
    obtain ⟨used, -, asked⟩ := of_bind asked
    obtain ⟨max, isMax, asked⟩ := of_bind asked
    obtain rfl := Except.ok.inj asked
    have fits : queried < 2 ^ 63 := by
      unfold downgradeCast at isMax
      obtain ⟨_, checked, -⟩ := of_bind isMax
      have := eosAssert_eq_ok.mp checked
      omega
    have covered := covers fits
    unfold availableInWindow at isAvailable
    split at isAvailable
    case isTrue exhausted =>
      obtain rfl := Except.ok.inj isAvailable
      have none : units = 0 := by
        simp only [Nat.cast_zero] at within
        omega
      rw [none, Nat.zero_mul, integerDivideCeil_zero, Nat.add_zero]
      exact before
    case isFalse room =>
      unfold downgradeCast at isAvailable
      obtain ⟨_, -, isAvailable⟩ := of_bind isAvailable
      obtain rfl := Except.ok.inj isAvailable
      simp only at within
      omega

/-- An accumulator that was advanced to the slot takes up what fits into a block. -/
theorem UsageAccumulator.add_eq_ok {accumulator : UsageAccumulator} {ordinal : Nat}
    (advanced : accumulator.lastOrdinal = ordinal) (valueEx : accumulator.valueEx < 2 ^ 63)
    (consumed : accumulator.consumed < 2 ^ 63) (few : units < 2 ^ 32) (positive : 0 < windowSize) :
    accumulator.add units ordinal windowSize = .ok { accumulator with
      consumed := accumulator.consumed + units
      valueEx := accumulator.valueEx +
        integerDivideCeil (units * rateLimitingPrecision) windowSize } := by
  have contribution := integerDivideCeil_le (units * rateLimitingPrecision) positive
  have bound : units * rateLimitingPrecision < 2 ^ 52 := by
    unfold rateLimitingPrecision
    omega
  unfold add downgradeCast
  refine sequence_eq_ok.mpr ⟨(), eosAssert_eq_ok.mpr ?_, ?_⟩
  · unfold maxRawValue rateLimitingPrecision
    omega
  refine sequence_eq_ok.mpr ⟨(), eosAssert_eq_ok.mpr (by omega), ?_⟩
  refine sequence_eq_ok.mpr ⟨_, sequence_eq_ok.mpr ⟨(), eosAssert_eq_ok.mpr (by omega), rfl⟩, ?_⟩
  refine sequence_eq_ok.mpr ⟨(), eosAssert_eq_ok.mpr (by omega), ?_⟩
  unfold advance
  rw [if_neg (not_not.mpr advanced)]
  rfl

/-! ### One account -/

theorem check_iff_of_limit {weight : Int} {total : Nat} {code : ExceptionCode} {what : String}
    {limit : Int} (positive : 0 < windowSize) (narrow : windowSize ≤ rateLimitingPrecision)
    (covers : queried < 2 ^ 63 → queried ≤ allowed)
    (asked : (if weight < 0 ∨ total = 0 then .ok ⟨-1, -1, -1⟩
      else limitInWindow queried valueEx windowSize).map (·.available) = .ok limit)
    (within : 0 ≤ limit → (units : Int) ≤ limit) :
    (if 0 ≤ weight ∧ 0 < total then
        checkUsedInWindow allowed
          (valueEx + integerDivideCeil (units * rateLimitingPrecision) windowSize)
          windowSize code what
      else .ok ()) = .ok () ↔
    (if 0 ≤ weight ∧ 0 < total then checkUsedInWindow allowed valueEx windowSize code what
      else .ok ()) = .ok () := by
  by_cases limited : 0 ≤ weight ∧ 0 < total
  · rw [if_neg (by omega)] at asked
    rw [if_pos limited, if_pos limited]
    cases queriedLimit : limitInWindow queried valueEx windowSize with
    | error thrown =>
      rw [queriedLimit] at asked
      cases asked
    | ok found =>
      rw [queriedLimit] at asked
      obtain rfl := Except.ok.inj asked
      unfold checkUsedInWindow
      rw [eosAssert_eq_ok, eosAssert_eq_ok]
      exact check_iff_of_available positive narrow covers queriedLimit
        (within (limitInWindow_available_nonneg queriedLimit))
  · rw [if_neg limited, if_neg limited]

/-- More is guaranteed to an account that is guaranteed more, also when the sum wraps. -/
theorem maxUserUseInWindow_le {virtualLimit userWeight allUserWeight less more : Nat}
    (ordered : less ≤ more) (width : more < 2 ^ 64)
    (fits : maxUserUseInWindow virtualLimit windowSize userWeight allUserWeight less < 2 ^ 63) :
    maxUserUseInWindow virtualLimit windowSize userWeight allUserWeight less ≤
      maxUserUseInWindow virtualLimit windowSize userWeight allUserWeight more := by
  unfold maxUserUseInWindow at fits ⊢
  have share : virtualLimit * windowSize * userWeight % 2 ^ 128 / allUserWeight < 2 ^ 128 :=
    lt_of_le_of_lt (Nat.div_le_self _ _) (Nat.mod_lt _ (by decide))
  generalize virtualLimit * windowSize * userWeight % 2 ^ 128 / allUserWeight = share at *
  omega

namespace ResourceLimits

variable {manager manager' : ResourceLimits} {accounts : List AccountName} {a : AccountName}
  {cpuUsage netUsage timeSlot : Nat}

/-- Windows, block limits and guaranteed resources are in their ranges. -/
structure WellFormed (manager : ResourceLimits) : Prop where
  cpuWindow : 0 < manager.config.accountCpuUsageAverageWindow
  cpuNarrow : manager.config.accountCpuUsageAverageWindow ≤ rateLimitingPrecision
  netWindow : 0 < manager.config.accountNetUsageAverageWindow
  netNarrow : manager.config.accountNetUsageAverageWindow ≤ rateLimitingPrecision
  cpuLimitMax : manager.config.cpuLimitMax < 2 ^ 32
  netLimitMax : manager.config.netLimitMax < 2 ^ 32
  cpuUs : manager.gmr.cpuUs < 2 ^ 64

structure AdvancedTo (timeSlot : Nat) (accumulator : UsageAccumulator) : Prop where
  lastOrdinal : accumulator.lastOrdinal = timeSlot
  valueEx : accumulator.valueEx < 2 ^ 63
  consumed : accumulator.consumed < 2 ^ 63

/-- The account exists, and its accumulators were advanced to the slot. -/
def Advanced (manager : ResourceLimits) (timeSlot : Nat) (a : AccountName) : Prop :=
  ∃ usage netWeight cpuWeight, manager.usage.lookup a = some usage ∧
    manager.getAccountLimits a = .ok (netWeight, cpuWeight) ∧
    AdvancedTo timeSlot usage.netUsage ∧ AdvancedTo timeSlot usage.cpuUsage

/-- The usage is at most what the queries of the account's limits answer; -1 is no limit. -/
def CanPay (manager : ResourceLimits) (cpuUsage netUsage : Nat) (a : AccountName) : Prop :=
  (∃ limit, manager.getAccountCpuLimit a = .ok limit ∧ (0 ≤ limit → (cpuUsage : Int) ≤ limit)) ∧
    ∃ limit, manager.getAccountNetLimit a = .ok limit ∧ (0 ≤ limit → (netUsage : Int) ≤ limit)

/-- What the account has used so far, together with this usage, passes the checks. -/
def Covered (manager : ResourceLimits) (cpuUsage netUsage : Nat) (a : AccountName) : Prop :=
  ∀ usage netWeight cpuWeight, manager.usage.lookup a = some usage →
    manager.getAccountLimits a = .ok (netWeight, cpuWeight) →
      manager.checkCpuUsage cpuWeight (usage.cpuUsage.valueEx +
          integerDivideCeil (cpuUsage * rateLimitingPrecision)
            manager.config.accountCpuUsageAverageWindow) = .ok () ∧
        manager.checkNetUsage netWeight (usage.netUsage.valueEx +
          integerDivideCeil (netUsage * rateLimitingPrecision)
            manager.config.accountNetUsageAverageWindow) = .ok ()

section

variable (wellFormed : manager.WellFormed)

include wellFormed

/-- An account that can pay has enough cpu exactly when it is not over its limit already, since
the query and the check guarantee the same. -/
theorem covered_iff_of_cpu (canPay : manager.CanPay cpuUsage netUsage a) :
    manager.Covered cpuUsage netUsage a ↔ manager.Covered 0 netUsage a := by
  obtain ⟨⟨limit, asked, within⟩, -⟩ := canPay
  unfold Covered
  refine forall_congr' fun usage => forall_congr' fun netWeight => forall_congr' fun cpuWeight =>
    forall_congr' fun found => forall_congr' fun weights => and_congr_left fun _ => ?_
  unfold getAccountCpuLimit getAccountCpuLimitEx at asked
  rw [Database.get_eq_ok.mpr found, ok_bind, weights, ok_bind] at asked
  rw [Nat.zero_mul, integerDivideCeil_zero, Nat.add_zero]
  exact check_iff_of_limit wellFormed.cpuWindow wellFormed.cpuNarrow (fun _ => le_rfl) asked within

/-- The same for net, if the check guarantees as much as the query. -/
theorem covered_iff_of_net (guaranteed : manager.gmr.netByte ≤ manager.gmr.cpuUs)
    (canPay : manager.CanPay cpuUsage netUsage a) (cpuUsage' : Nat) :
    manager.Covered cpuUsage' netUsage a ↔ manager.Covered cpuUsage' 0 a := by
  obtain ⟨-, limit, asked, within⟩ := canPay
  unfold Covered
  refine forall_congr' fun usage => forall_congr' fun netWeight => forall_congr' fun cpuWeight =>
    forall_congr' fun found => forall_congr' fun weights => and_congr_right fun _ => ?_
  unfold getAccountNetLimit getAccountNetLimitEx at asked
  rw [Database.get_eq_ok.mpr found, ok_bind, weights, ok_bind] at asked
  rw [Nat.zero_mul, integerDivideCeil_zero, Nat.add_zero]
  exact check_iff_of_limit wellFormed.netWindow wellFormed.netNarrow
    (maxUserUseInWindow_le guaranteed wellFormed.cpuUs) asked within

/-- Nothing but the two checks can fail when an account is billed. -/
theorem billAccount_iff (advanced : manager.Advanced timeSlot a) (fewCpu : cpuUsage < 2 ^ 32)
    (fewNet : netUsage < 2 ^ 32) :
    (∃ billed, billAccount cpuUsage netUsage timeSlot manager a = .ok billed) ↔
      manager.Covered cpuUsage netUsage a := by
  obtain ⟨usage, netWeight, cpuWeight, found, weights, netAdvanced, cpuAdvanced⟩ := advanced
  have netAdded := UsageAccumulator.add_eq_ok netAdvanced.lastOrdinal netAdvanced.valueEx
    netAdvanced.consumed fewNet wellFormed.netWindow
  have cpuAdded := UsageAccumulator.add_eq_ok cpuAdvanced.lastOrdinal cpuAdvanced.valueEx
    cpuAdvanced.consumed fewCpu wellFormed.cpuWindow
  unfold billAccount
  rw [Database.get_eq_ok.mpr found, ok_bind, weights, ok_bind]
  dsimp only
  rw [netAdded, ok_bind, cpuAdded, ok_bind]
  dsimp only
  constructor
  · rintro ⟨billed, ran⟩ other otherNet otherCpu otherFound otherWeights
    obtain rfl := Option.some.inj (found.symm.trans otherFound)
    obtain ⟨rfl, rfl⟩ := Prod.mk.inj (Except.ok.inj (weights.symm.trans otherWeights))
    obtain ⟨_, cpuChecked, ran⟩ := of_bind ran
    obtain ⟨_, netChecked, -⟩ := of_bind ran
    exact ⟨cpuChecked, netChecked⟩
  · intro covered
    obtain ⟨cpuChecked, netChecked⟩ := covered usage netWeight cpuWeight found weights
    exact ⟨_, sequence_eq_ok.mpr ⟨(), cpuChecked, sequence_eq_ok.mpr ⟨(), netChecked, rfl⟩⟩⟩

end

/-! ### All accounts -/

theorem billAccount_eq_insert (ran : billAccount cpuUsage netUsage timeSlot manager a = .ok billed) :
    ∃ usage, billed = { manager with usage := manager.usage.insert a usage } := by
  unfold billAccount at ran
  obtain ⟨usage, -, ran⟩ := of_bind ran
  obtain ⟨weights, -, ran⟩ := of_bind ran
  obtain ⟨net, -, ran⟩ := of_bind ran
  obtain ⟨cpu, -, ran⟩ := of_bind ran
  obtain ⟨_, -, ran⟩ := of_bind ran
  obtain ⟨_, -, ran⟩ := of_bind ran
  exact ⟨_, (Except.ok.inj ran).symm⟩

section Insert

variable {b : AccountName} (usage : ResourceUsage)

theorem WellFormed.insert (wellFormed : manager.WellFormed) :
    { manager with usage := manager.usage.insert b usage }.WellFormed :=
  ⟨wellFormed.cpuWindow, wellFormed.cpuNarrow, wellFormed.netWindow, wellFormed.netNarrow,
    wellFormed.cpuLimitMax, wellFormed.netLimitMax, wellFormed.cpuUs⟩

theorem advanced_insert (different : a ≠ b) :
    { manager with usage := manager.usage.insert b usage }.Advanced timeSlot a ↔
      manager.Advanced timeSlot a := by
  unfold Advanced
  rw [AList.lookup_insert_ne different]
  rfl

theorem covered_insert (different : a ≠ b) :
    { manager with usage := manager.usage.insert b usage }.Covered cpuUsage netUsage a ↔
      manager.Covered cpuUsage netUsage a := by
  unfold Covered
  rw [AList.lookup_insert_ne different]
  rfl

end Insert

/-- The loop bills every account if and only if each of them is covered: what one round writes
is not read by the rounds of the other accounts. -/
theorem billAccounts_iff (distinct : accounts.Nodup) (wellFormed : manager.WellFormed)
    (advanced : ∀ a ∈ accounts, manager.Advanced timeSlot a) (fewCpu : cpuUsage < 2 ^ 32)
    (fewNet : netUsage < 2 ^ 32) :
    (∃ billed, accounts.foldlM (billAccount cpuUsage netUsage timeSlot) manager = .ok billed) ↔
      ∀ a ∈ accounts, manager.Covered cpuUsage netUsage a := by
  induction accounts generalizing manager with
  | nil => exact ⟨fun _ a member => absurd member not_mem_nil, fun _ => ⟨manager, rfl⟩⟩
  | cons a accounts ih =>
    obtain ⟨fresh, distinct⟩ := nodup_cons.mp distinct
    obtain ⟨advancedFirst, advanced⟩ := forall_mem_cons.mp advanced
    have first := billAccount_iff wellFormed advancedFirst fewCpu fewNet
    rw [forall_mem_cons, foldlM_cons, ← first]
    cases ran : billAccount cpuUsage netUsage timeSlot manager a with
    | error thrown => simp [error_bind]
    | ok billed =>
      obtain ⟨usage, rfl⟩ := billAccount_eq_insert ran
      have different : ∀ other ∈ accounts, other ≠ a := fun other member equal =>
        fresh (equal ▸ member)
      rw [ok_bind, ih distinct (wellFormed.insert usage) fun other member =>
        (advanced_insert usage (different other member)).mpr (advanced other member)]
      constructor
      · exact fun covered => ⟨⟨_, rfl⟩, fun other member =>
          (covered_insert usage (different other member)).mp (covered other member)⟩
      · exact fun covered other member =>
          (covered_insert usage (different other member)).mpr (covered.2 other member)

theorem billAccounts_state
    (ran : accounts.foldlM (billAccount cpuUsage netUsage timeSlot) manager = .ok billed) :
    billed.state = manager.state ∧ billed.config = manager.config := by
  induction accounts generalizing manager with
  | nil =>
    obtain rfl := Except.ok.inj ran
    exact ⟨rfl, rfl⟩
  | cons a accounts ih =>
    rw [foldlM_cons] at ran
    obtain ⟨first, ranFirst, ran⟩ := of_bind ran
    obtain ⟨usage, rfl⟩ := billAccount_eq_insert ranFirst
    obtain ⟨sameState, sameConfig⟩ := ih ran
    exact ⟨sameState, sameConfig⟩

/-- A transaction that its accounts can pay is billed without an exception exactly when none of
them has used more cpu than the check allows, and none of them more net with the net of the
transaction. The latter says no more than that the account is not over its limit already if
`gmr.net_byte` is at most `gmr.cpu_us`. -/
theorem addTransactionUsage_iff_covered (distinct : accounts.Nodup) (wellFormed : manager.WellFormed)
    (advanced : ∀ a ∈ accounts, manager.Advanced timeSlot a)
    (canPay : ∀ a ∈ accounts, manager.CanPay cpuUsage netUsage a)
    (blockCpu : manager.state.pendingCpuUsage + cpuUsage ≤ manager.config.cpuLimitMax)
    (blockNet : manager.state.pendingNetUsage + netUsage ≤ manager.config.netLimitMax) :
    ((∃ billed, manager.addTransactionUsage accounts cpuUsage netUsage timeSlot = .ok billed) ↔
      ∀ a ∈ accounts, manager.Covered 0 netUsage a) ∧
    (manager.gmr.netByte ≤ manager.gmr.cpuUs →
      ∀ a ∈ accounts, (manager.Covered 0 netUsage a ↔ manager.Covered 0 0 a)) := by
  have cpuMax := wellFormed.cpuLimitMax
  have netMax := wellFormed.netLimitMax
  constructor
  · have covers : (∀ a ∈ accounts, manager.Covered 0 netUsage a) ↔
        ∀ a ∈ accounts, manager.Covered cpuUsage netUsage a :=
      forall₂_congr fun a member => (covered_iff_of_cpu wellFormed (canPay a member)).symm
    rw [covers, ← billAccounts_iff distinct wellFormed advanced (by omega) (by omega)]
    constructor
    · rintro ⟨billed, ran⟩
      unfold addTransactionUsage at ran
      obtain ⟨looped, loop, -⟩ := of_bind ran
      exact ⟨looped, loop⟩
    · rintro ⟨looped, loop⟩
      obtain ⟨sameState, sameConfig⟩ := billAccounts_state loop
      unfold addTransactionUsage
      rw [loop, ok_bind, sameState, sameConfig, Nat.mod_eq_of_lt (by omega),
        Nat.mod_eq_of_lt (by omega)]
      exact ⟨_, sequence_eq_ok.mpr ⟨(), eosAssert_eq_ok.mpr blockCpu,
        sequence_eq_ok.mpr ⟨(), eosAssert_eq_ok.mpr blockNet, rfl⟩⟩⟩
  · exact fun guaranteed a member => covered_iff_of_net wellFormed guaranteed (canPay a member) 0

/-- A chain in slot 7 with an account, 1, that has staked nothing. -/
def unstaked (gmr : GmrParameters) : ResourceLimits where
  limits := AList.insert (false, 2) ⟨1000, 1000, 0⟩ (AList.singleton (false, 1) ⟨0, 0, 0⟩)
  usage := AList.singleton 1 ⟨⟨7, 0, 0⟩, ⟨7, 0, 0⟩, 0⟩
  state :=
    { totalNetWeight := 1000
      totalCpuWeight := 1000
      virtualNetLimit := 1048576
      virtualCpuLimit := 200000 }
  config := ⟨200000, 1048576, 28800, 28800⟩
  gmr

theorem unstaked_wellFormed {gmr : GmrParameters} (cpuUs : gmr.cpuUs < 2 ^ 64) :
    (unstaked gmr).WellFormed := by
  refine ⟨?_, ?_, ?_, ?_, ?_, ?_, cpuUs⟩ <;> simp [unstaked, rateLimitingPrecision]

theorem unstaked_advanced (gmr : GmrParameters) : ∀ a ∈ [1], (unstaked gmr).Advanced 7 a := by
  intro a member
  obtain rfl := mem_singleton.mp member
  exact ⟨_, 0, 0, rfl, rfl, ⟨rfl, by decide, by decide⟩, ⟨rfl, by decide, by decide⟩⟩

theorem addTransactionUsage_of_default_gmr :
    ∃ billed, (unstaked ⟨8192, 200000, 10240⟩).addTransactionUsage [1] 300 150 7 = .ok billed := by
  have canPay : ∀ a ∈ [1], (unstaked ⟨8192, 200000, 10240⟩).CanPay 300 150 a := by
    intro a member
    obtain rfl := mem_singleton.mp member
    exact ⟨⟨200000, by rfl, by decide⟩, ⟨10240, by rfl, by decide⟩⟩
  obtain ⟨returns, covered⟩ := addTransactionUsage_iff_covered (nodup_singleton 1)
    (unstaked_wellFormed (by decide)) (unstaked_advanced _) canPay (by decide) (by decide)
  refine returns.mpr fun a member => (covered (by decide) a member).mpr ?_
  obtain rfl := mem_singleton.mp member
  intro usage netWeight cpuWeight found weights
  obtain rfl := Option.some.inj found
  obtain ⟨rfl, rfl⟩ := Prod.mk.inj (Except.ok.inj weights)
  exact ⟨rfl, rfl⟩

/-- An account is told that it can use 200 bytes, and is refused 150: the check guarantees 100. -/
theorem addTransactionUsage_refuses_within_limit :
    (unstaked ⟨8192, 100, 200⟩).WellFormed ∧ (unstaked ⟨8192, 100, 200⟩).Advanced 7 1 ∧
      (unstaked ⟨8192, 100, 200⟩).CanPay 0 150 1 ∧
      (unstaked ⟨8192, 100, 200⟩).getAccountNetLimit 1 = .ok 200 ∧
      (unstaked ⟨8192, 100, 200⟩).addTransactionUsage [1] 0 150 7 = .error ⟨.txNetUsageExceeded,
        "authorizing account '${n}' has insufficient net resources for this transaction"⟩ :=
  ⟨unstaked_wellFormed (by decide), unstaked_advanced _ 1 (mem_singleton.mpr rfl),
    ⟨⟨100, by rfl, by decide⟩, ⟨200, by rfl, by decide⟩⟩, by rfl, by rfl⟩

end ResourceLimits

end CodexRelay.Chain
