import CodexRelay.Chain.ResourceLimits.Model

/-!
Contract: how far `exponential_moving_average_accumulator` can rise.

Owns:
- that what decays in a period makes room for what a period adds, rounded up and down as the code
  does;
- that an accumulator stays below the largest usage of a period, whatever the windows, and that no
  check of `add` fails.
-/

namespace CodexRelay.Chain

open List

theorem integerDivideCeil_mul_lt (num : Nat) {den : Nat} (positive : 0 < den) :
    integerDivideCeil num den * den < num + den := by
  have division := Nat.div_add_mod num den
  have remainder := Nat.mod_lt num positive
  unfold integerDivideCeil
  split_ifs with some
  · rw [Nat.add_mul, Nat.mul_comm (num / den)]
    omega
  · rw [Nat.add_zero, Nat.mul_comm (num / den)]
    omega

theorem integerDivideCeil_le_of_le_mul {num den bound : Nat} (positive : 0 < den)
    (le : num ≤ bound * den) : integerDivideCeil num den ≤ bound := by
  have upper := integerDivideCeil_mul_lt num positive
  have below : integerDivideCeil num den * den < (bound + 1) * den := by
    rw [Nat.add_mul]
    omega
  exact Nat.le_of_lt_succ (Nat.lt_of_mul_lt_mul_right below)

/-- The value that is left after a period, rounded down, and what the period adds, rounded up, stay
below a bound on both. -/
theorem decay_add_ceil_le {value units bound window delta : Nat} (value_le : value ≤ bound)
    (units_le : units ≤ bound) (positive : 0 < window) (later : 0 < delta) :
    value * (window - delta) / window + integerDivideCeil units window ≤ bound := by
  have left : value * (window - delta) / window * window ≤ bound * (window - 1) :=
    (Nat.div_mul_le_self _ _).trans (Nat.mul_le_mul value_le (by omega))
  have added := integerDivideCeil_mul_lt units positive
  have whole : bound * (window - 1) + bound = bound * window := by
    rw [← Nat.mul_succ, Nat.succ_eq_add_one, Nat.sub_add_cancel positive]
  have below : (value * (window - delta) / window + integerDivideCeil units window) * window <
      (bound + 1) * window := by
    rw [Nat.add_mul, Nat.add_mul]
    omega
  exact Nat.le_of_lt_succ (Nat.lt_of_mul_lt_mul_right below)

namespace UsageAccumulator

def average (accumulator : UsageAccumulator) : Nat :=
  integerDivideCeil accumulator.valueEx rateLimitingPrecision

structure Usage where
  units : Nat
  ordinal : Nat
  windowSize : Nat

def addAll : List Usage → UsageAccumulator → Checked UsageAccumulator
  | [], accumulator => .ok accumulator
  | usage :: rest, accumulator => do
      let accumulator ← accumulator.add usage.units usage.ordinal usage.windowSize
      addAll rest accumulator

/-- A call whose usage is at most `most`, in a window that can be multiplied with it. -/
structure Usage.Within (most : Nat) (usage : Usage) : Prop where
  units : usage.units ≤ most
  positive : 0 < usage.windowSize
  fits : most * rateLimitingPrecision * usage.windowSize < 2 ^ 64

/-- An accumulator that never saw more than `most` in a period. -/
structure Below (most : Nat) (accumulator : UsageAccumulator) : Prop where
  valueEx : accumulator.valueEx ≤ most * rateLimitingPrecision
  consumed : accumulator.consumed ≤ 2 * most

theorem Below.average_le {most : Nat} {accumulator : UsageAccumulator}
    (below : accumulator.Below most) : accumulator.average ≤ most :=
  integerDivideCeil_le_of_le_mul (by decide) below.valueEx

variable {most : Nat} {accumulator : UsageAccumulator} {usage : Usage}

section

variable (below : accumulator.Below most)

include below

/-- An accumulator that is moved to a later ordinal has room for the usage of a period. -/
theorem Below.advance (within : usage.Within most)
    (later : accumulator.lastOrdinal < usage.ordinal) :
    ∃ valueEx, accumulator.advance usage.ordinal usage.windowSize =
        .ok ⟨usage.ordinal, valueEx, integerDivideCeil valueEx rateLimitingPrecision⟩ ∧
      valueEx + integerDivideCeil (usage.units * rateLimitingPrecision) usage.windowSize ≤
        most * rateLimitingPrecision := by
  have contribution : usage.units * rateLimitingPrecision ≤ most * rateLimitingPrecision :=
    Nat.mul_le_mul_right _ within.units
  have decays : ∃ valueEx, accumulator.decayed usage.ordinal usage.windowSize = .ok valueEx ∧
      valueEx + integerDivideCeil (usage.units * rateLimitingPrecision) usage.windowSize ≤
        most * rateLimitingPrecision := by
    unfold decayed
    split_ifs with inside
    · refine ⟨_, ?_, decay_add_ceil_le below.valueEx contribution within.positive
        (Nat.sub_pos_of_lt later)⟩
      have product : accumulator.valueEx *
          (usage.windowSize - (usage.ordinal - accumulator.lastOrdinal)) ≤ 2 ^ 64 - 1 := by
        have factor := Nat.mul_le_mul below.valueEx
          (Nat.sub_le usage.windowSize (usage.ordinal - accumulator.lastOrdinal))
        have := within.fits
        omega
      have room : usage.windowSize - (usage.ordinal - accumulator.lastOrdinal) = 0 ∨
          accumulator.valueEx ≤
            (2 ^ 64 - 1) / (usage.windowSize - (usage.ordinal - accumulator.lastOrdinal)) := by
        rcases Nat.eq_zero_or_pos
          (usage.windowSize - (usage.ordinal - accumulator.lastOrdinal)) with none | some
        · exact .inl none
        · exact .inr ((Nat.le_div_iff_mul_le some).mpr product)
      rw [mulRatio, eosAssert_of room]
      rfl
    · refine ⟨0, rfl, ?_⟩
      rw [Nat.zero_add]
      exact integerDivideCeil_le_of_le_mul within.positive
        (contribution.trans (Nat.le_mul_of_pos_right _ within.positive))
  obtain ⟨valueEx, decayed, room⟩ := decays
  refine ⟨valueEx, ?_, room⟩
  rw [UsageAccumulator.advance, if_pos later.ne, eosAssert_of later, decayed]
  rfl

section

variable (fits : 2 * most * rateLimitingPrecision < 2 ^ 64)

include fits

theorem Below.add_eq (within : usage.Within most) :
    accumulator.add usage.units usage.ordinal usage.windowSize =
      (accumulator.advance usage.ordinal usage.windowSize).map fun advanced =>
        { advanced with
          consumed := advanced.consumed + usage.units
          valueEx := advanced.valueEx +
            integerDivideCeil (usage.units * rateLimitingPrecision) usage.windowSize } := by
  have contribution : integerDivideCeil (usage.units * rateLimitingPrecision) usage.windowSize ≤
      most * rateLimitingPrecision :=
    integerDivideCeil_le_of_le_mul within.positive ((Nat.mul_le_mul_right _ within.units).trans
      (Nat.le_mul_of_pos_right _ within.positive))
  have units := within.units
  have valueEx := below.valueEx
  have consumed := below.consumed
  have raw : usage.units ≤ maxRawValue := by
    rw [maxRawValue]
    rw [rateLimitingPrecision] at fits ⊢
    omega
  have precise : most * 2 ≤ most * rateLimitingPrecision := Nat.mul_le_mul_left _ (by decide)
  rw [Nat.mul_assoc] at fits
  have tracked : usage.units ≤ 2 ^ 64 - 1 - accumulator.consumed := by omega
  have cast : integerDivideCeil (usage.units * rateLimitingPrecision) usage.windowSize ≤
      2 ^ 64 - 1 := by omega
  have accumulated : integerDivideCeil (usage.units * rateLimitingPrecision) usage.windowSize ≤
      2 ^ 64 - 1 - accumulator.valueEx := by omega
  rw [add, eosAssert_of raw, ok_bind, eosAssert_of tracked, ok_bind, downgradeCast,
    eosAssert_of cast, ok_bind, pure_bind, eosAssert_of accumulated, ok_bind]
  cases accumulator.advance usage.ordinal usage.windowSize with
  | error thrown => rfl
  | ok advanced => rfl

/-- A step: a call at a later ordinal, or the first call on a fresh accumulator. -/
theorem Below.step (within : usage.Within most)
    (later : accumulator.lastOrdinal < usage.ordinal ∨
      accumulator = {} ∧ usage.ordinal = 0) :
    ∃ accumulator', accumulator.add usage.units usage.ordinal usage.windowSize = .ok accumulator' ∧
      accumulator'.Below most ∧ accumulator'.lastOrdinal = usage.ordinal := by
  rw [below.add_eq fits within]
  rcases later with later | ⟨rfl, first⟩
  · obtain ⟨valueEx, advanced, room⟩ := below.advance within later
    rw [advanced]
    refine ⟨_, rfl, ⟨room, ?_⟩, rfl⟩
    have average : integerDivideCeil valueEx rateLimitingPrecision ≤ most :=
      integerDivideCeil_le_of_le_mul (by decide) (by omega)
    have units := within.units
    show integerDivideCeil valueEx rateLimitingPrecision + usage.units ≤ 2 * most
    omega
  · rw [first, UsageAccumulator.advance, if_neg (by simp)]
    refine ⟨_, rfl, ⟨?_, ?_⟩, rfl⟩
    · show 0 + integerDivideCeil (usage.units * rateLimitingPrecision) usage.windowSize ≤ _
      rw [Nat.zero_add]
      exact integerDivideCeil_le_of_le_mul within.positive ((Nat.mul_le_mul_right _ within.units).trans
        (Nat.le_mul_of_pos_right _ within.positive))
    · have units := within.units
      show 0 + usage.units ≤ 2 * most
      omega

theorem Below.addAll {usages : List Usage} (within : ∀ usage ∈ usages, usage.Within most)
    (rising : usages.Pairwise fun earlier later => earlier.ordinal < later.ordinal)
    (later : ∀ usage ∈ usages.head?, accumulator.lastOrdinal < usage.ordinal ∨
      accumulator = {} ∧ usage.ordinal = 0) :
    ∃ accumulator', UsageAccumulator.addAll usages accumulator = .ok accumulator' ∧
      accumulator'.Below most := by
  induction usages generalizing accumulator with
  | nil => exact ⟨accumulator, rfl, below⟩
  | cons usage rest ih =>
    obtain ⟨next, added, nextBelow, ordinal⟩ :=
      below.step fits (within usage mem_cons_self) (later usage rfl)
    obtain ⟨before, rising⟩ := pairwise_cons.mp rising
    obtain ⟨last, ran, lastBelow⟩ := ih nextBelow
      (fun other member => within other (mem_cons_of_mem _ member)) rising (by
        intro other isHead
        rw [ordinal]
        exact .inl (before other (mem_of_head? isHead)))
    refine ⟨last, ?_, lastBelow⟩
    rw [UsageAccumulator.addAll, added, ok_bind]
    exact ran

end

end

/-- On a fresh accumulator no call at rising ordinals throws, and neither the value nor the average
rises above the largest usage. -/
theorem addAll_below {usages : List Usage} (fits : 2 * most * rateLimitingPrecision < 2 ^ 64)
    (within : ∀ usage ∈ usages, usage.Within most)
    (rising : usages.Pairwise fun earlier later => earlier.ordinal < later.ordinal) :
    ∃ accumulator, UsageAccumulator.addAll usages {} = .ok accumulator ∧
      accumulator.valueEx ≤ most * rateLimitingPrecision ∧ accumulator.average ≤ most := by
  have fresh : ({} : UsageAccumulator).Below most := ⟨Nat.zero_le _, Nat.zero_le _⟩
  obtain ⟨accumulator, ran, below⟩ := fresh.addAll fits within rising (by
    intro usage _
    rcases Nat.eq_zero_or_pos usage.ordinal with first | later
    · exact .inr ⟨rfl, first⟩
    · exact .inl later)
  exact ⟨accumulator, ran, below.valueEx, below.average_le⟩

theorem addAll_below_three :
    ∃ accumulator, UsageAccumulator.addAll [⟨5, 0, 2⟩, ⟨3, 1, 7⟩, ⟨5, 9, 4⟩] {} = .ok accumulator ∧
      accumulator.valueEx ≤ 5 * rateLimitingPrecision ∧ accumulator.average ≤ 5 := by
  refine addAll_below (by decide) (fun usage member => ?_) (by decide)
  simp only [mem_cons, not_mem_nil, or_false] at member
  rcases member with rfl | rfl | rfl
  · exact ⟨by decide, by decide, by decide⟩
  · exact ⟨by decide, by decide, by decide⟩
  · exact ⟨by decide, by decide, by decide⟩

end UsageAccumulator

end CodexRelay.Chain
