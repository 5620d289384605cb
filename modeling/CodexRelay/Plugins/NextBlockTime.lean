import CodexRelay.Plugins.ProducerPlugin

/-!
Contract: when a producer has its next slot.

Owns:
- `calculate_next_block_time`;
- that it finds the first slot, from the minimum on, that the active schedule gives to the producer.

A slot belongs to a round of `producer_repetitions` slots, and rounds go through the schedule in
turn.
-/

namespace CodexRelay.Plugins

open Chain List

namespace ProducerPlugin

variable {plugin : ProducerPlugin} {producer : AccountName}

def producerIndex (plugin : ProducerPlugin) (producer : AccountName) : Option Nat :=
  plugin.head.activeSchedule.producers.findIdx? (·.producerName = producer)

/-- `minimum_offset`: a producer waits until after its watermark. -/
def minimumOffset (plugin : ProducerPlugin) (producer : AccountName) : Nat :=
  match plugin.getWatermark producer with
  | some watermark =>
    let blockNum := (plugin.head.blockNum + if plugin.pending.isSome then 1 else 0) % 2 ^ 32
    if blockNum < watermark then (watermark - blockNum + 1) % 2 ^ 32 else 1
  | none => 1

/-- The slot of `calculate_next_block_time`, in the arithmetic of `uint32_t` and `size_t`. -/
def nextBlockSlot (size producerIndex minimumSlot : Nat) : Nat :=
  let minimumSlotProducerIndex := minimumSlot % (size * producerRepetitions) / producerRepetitions
  if producerIndex = minimumSlotProducerIndex then minimumSlot
  else
    let producerDistance := (producerIndex + 2 ^ 64 - minimumSlotProducerIndex) % 2 ^ 64
    let producerDistance :=
      if producerIndex < producerDistance then (producerDistance + size) % 2 ^ 64
      else producerDistance
    let firstMinimumProducerSlot := minimumSlot - minimumSlot % producerRepetitions
    (firstMinimumProducerSlot + producerDistance * producerRepetitions) % 2 ^ 32

def calculateNextBlockTime (plugin : ProducerPlugin) (producer : AccountName)
    (currentSlot : Nat) : Option Nat :=
  (plugin.producerIndex producer).map fun producerIndex =>
    toTimePoint (nextBlockSlot plugin.head.activeSchedule.producers.length producerIndex
      ((currentSlot + plugin.minimumOffset producer) % 2 ^ 32))

/-! ### Rounds -/

/-- The schedule gives a slot to the producer whose turn its round is. -/
theorem slot_index_eq (slot size : Nat) :
    slot % (size * producerRepetitions) / producerRepetitions = slot / producerRepetitions % size := by
  rw [Nat.mul_comm]
  exact Nat.mod_mul_right_div_self slot producerRepetitions size

/-- Between a round and the next turn of a producer there is no other turn of it. -/
theorem round_eq_of_turn {size round distance step : Nat} (lt : distance < size)
    (le : step ≤ distance) (same : (round + step) % size = (round + distance) % size) :
    step = distance := by
  have congruent : step ≡ distance [MOD size] := Nat.ModEq.add_left_cancel' round same
  rw [Nat.ModEq, Nat.mod_eq_of_lt (by omega), Nat.mod_eq_of_lt lt] at congruent
  exact congruent

/-- The number of rounds from the turn of one producer to the next turn of another one. -/
def roundsUntil (size producerIndex turn : Nat) : Nat :=
  if turn ≤ producerIndex then producerIndex - turn else producerIndex + size - turn

theorem add_roundsUntil {size producerIndex round : Nat} (lt : producerIndex < size) :
    roundsUntil size producerIndex (round % size) < size ∧
      (round + roundsUntil size producerIndex (round % size)) % size = producerIndex := by
  have turn := Nat.mod_lt round (Nat.zero_lt_of_lt lt)
  have division := Nat.mod_add_div round size
  unfold roundsUntil
  split_ifs with before
  · refine ⟨by omega, ?_⟩
    rw [show round + (producerIndex - round % size) = producerIndex + size * (round / size) by omega,
      Nat.add_mul_mod_self_left, Nat.mod_eq_of_lt lt]
  · refine ⟨by omega, ?_⟩
    rw [show round + (producerIndex + size - round % size) =
        producerIndex + size * (round / size + 1) by rw [Nat.mul_succ]; omega,
      Nat.add_mul_mod_self_left, Nat.mod_eq_of_lt lt]

def slotsFrom (size producerIndex minimumSlot : Nat) : Set Nat :=
  {slot | minimumSlot ≤ slot ∧ slot % (size * producerRepetitions) / producerRepetitions = producerIndex}

/-- The first slot of a producer from a minimum on, in numbers that do not overflow. -/
def firstSlot (size producerIndex minimumSlot : Nat) : Nat :=
  if producerIndex = minimumSlot / producerRepetitions % size then minimumSlot
  else
    (minimumSlot / producerRepetitions +
      roundsUntil size producerIndex (minimumSlot / producerRepetitions % size)) * producerRepetitions

section

variable {size producerIndex minimumSlot : Nat} (lt : producerIndex < size)

include lt

theorem isLeast_firstSlot :
    IsLeast (slotsFrom size producerIndex minimumSlot) (firstSlot size producerIndex minimumSlot) := by
  have repetitions : producerRepetitions = 3 := rfl
  obtain ⟨short, turn⟩ := @add_roundsUntil size producerIndex (minimumSlot / producerRepetitions) lt
  unfold firstSlot slotsFrom
  simp only [slot_index_eq]
  split_ifs with now
  · exact ⟨⟨le_rfl, now.symm⟩, fun slot isSlot => isSlot.1⟩
  · generalize rounds : roundsUntil size producerIndex (minimumSlot / producerRepetitions % size) =
      distance at short turn
    generalize isRound : minimumSlot / producerRepetitions = round at turn now
    have positive : 0 < distance := by
      rcases Nat.eq_zero_or_pos distance with zero | positive
      · rw [zero, Nat.add_zero] at turn
        exact absurd turn.symm now
      · exact positive
    have division := Nat.div_add_mod minimumSlot producerRepetitions
    rw [repetitions] at isRound division ⊢
    constructor
    · refine ⟨by omega, ?_⟩
      rw [Nat.mul_div_cancel _ (by decide)]
      exact turn
    · rintro slot ⟨le, isTurn⟩
      -- an earlier slot would be a turn of the producer in a round before
      by_contra early
      have earlier : ∃ step < distance, slot / 3 = round + step :=
        ⟨slot / 3 - round, by omega, by omega⟩
      obtain ⟨step, before, isStep⟩ := earlier
      rw [isStep, ← turn] at isTurn
      have same := round_eq_of_turn short before.le isTurn
      omega

/-- The arithmetic of the code finds the first slot when that fits into 32 bits. -/
theorem nextBlockSlot_eq (fits : firstSlot size producerIndex minimumSlot < 2 ^ 32) :
    nextBlockSlot size producerIndex minimumSlot = firstSlot size producerIndex minimumSlot := by
  have turnLt := Nat.mod_lt (minimumSlot / producerRepetitions) (Nat.zero_lt_of_lt lt)
  have turnLe := Nat.mod_le (minimumSlot / producerRepetitions) size
  unfold nextBlockSlot
  simp only [slot_index_eq]
  unfold firstSlot at fits ⊢
  have repetitions : producerRepetitions = 3 := rfl
  rw [repetitions] at fits turnLt turnLe ⊢
  generalize minimumSlot / 3 % size = turn at fits turnLt turnLe ⊢
  by_cases now : producerIndex = turn
  · rw [if_pos now, if_pos now]
  · rw [if_neg now] at fits
    rw [if_neg now, if_neg now]
    unfold roundsUntil at fits ⊢
    by_cases before : turn ≤ producerIndex
    · rw [if_pos before] at fits ⊢
      have distance : (producerIndex + 2 ^ 64 - turn) % 2 ^ 64 = producerIndex - turn := by omega
      rw [distance, if_neg (by omega), Nat.mod_eq_of_lt (by omega)]
      omega
    · rw [if_neg before] at fits ⊢
      -- the difference of the indices underflows, and the size of the schedule brings it back
      have distance : (producerIndex + 2 ^ 64 - turn) % 2 ^ 64 = producerIndex + 2 ^ 64 - turn := by
        omega
      have wrapped : (producerIndex + 2 ^ 64 - turn + size) % 2 ^ 64 = producerIndex + size - turn := by
        omega
      rw [distance, if_pos (by omega), wrapped, Nat.mod_eq_of_lt (by omega)]
      omega

end

/-! ### The schedule -/

def ScheduledAt (plugin : ProducerPlugin) (producer : AccountName) (slot : Nat) : Prop :=
  ∃ key, plugin.head.getScheduledProducer slot = .ok key ∧ key.producerName = producer

theorem exists_producerIndex
    (scheduled : ∃ key ∈ plugin.head.activeSchedule.producers, key.producerName = producer) :
    ∃ index, plugin.producerIndex producer = some index := by
  obtain ⟨key, member, isProducer⟩ := scheduled
  apply Option.isSome_iff_exists.mp
  rw [producerIndex, findIdx?_isSome, any_eq_true]
  exact ⟨key, member, by simp [isProducer]⟩

/-- With distinct producers, the slots of a producer are those with its index. -/
theorem scheduledAt_iff {index : Nat}
    (distinct : (plugin.head.activeSchedule.producers.map (·.producerName)).Nodup)
    (found : plugin.producerIndex producer = some index) (slot : Nat) :
    plugin.ScheduledAt producer slot ↔
      slot % (plugin.head.activeSchedule.producers.length * producerRepetitions) /
        producerRepetitions = index := by
  obtain ⟨lt, isProducer, -⟩ := findIdx?_eq_some_iff_getElem.mp found
  rw [decide_eq_true_eq] at isProducer
  unfold ScheduledAt BlockHeaderState.getScheduledProducer
  dsimp only
  generalize slot % (plugin.head.activeSchedule.producers.length * producerRepetitions) /
    producerRepetitions = turn
  constructor
  · rintro ⟨key, isScheduled, sameName⟩
    split at isScheduled
    · rename_i scheduled present
      obtain rfl := Except.ok.inj isScheduled
      obtain ⟨turnLt, -⟩ := List.getElem?_eq_some_iff.mp present
      apply (getElem?_inj (by simpa using turnLt) distinct).mp
      rw [getElem?_map, getElem?_map, present, getElem?_eq_getElem lt,
        Option.map_some, Option.map_some, sameName, isProducer]
    · cases isScheduled
  · rintro rfl
    refine ⟨_, ?_, isProducer⟩
    rw [getElem?_eq_getElem lt]

/-- **The next time of a producer**: with distinct producers, a scheduled producer has a first slot
from the minimum on, and `calculate_next_block_time` returns its time when it fits into 32 bits. -/
theorem calculateNextBlockTime_isLeast (plugin : ProducerPlugin) (producer : AccountName)
    (currentSlot : Nat)
    (distinct : (plugin.head.activeSchedule.producers.map (·.producerName)).Nodup)
    (scheduled : ∃ key ∈ plugin.head.activeSchedule.producers, key.producerName = producer) :
    ∃ slot,
      IsLeast {slot | currentSlot + plugin.minimumOffset producer ≤ slot ∧
        plugin.ScheduledAt producer slot} slot ∧
      (slot < 2 ^ 32 →
        plugin.calculateNextBlockTime producer currentSlot = some (toTimePoint slot)) := by
  obtain ⟨index, found⟩ := exists_producerIndex scheduled
  obtain ⟨lt, -⟩ := findIdx?_eq_some_iff_getElem.mp found
  have least := @isLeast_firstSlot _ _ (currentSlot + plugin.minimumOffset producer) lt
  refine ⟨firstSlot plugin.head.activeSchedule.producers.length index
    (currentSlot + plugin.minimumOffset producer), ?_, ?_⟩
  · simp only [scheduledAt_iff distinct found]
    exact least
  · intro fits
    have reached := least.1.1
    unfold calculateNextBlockTime
    rw [found, Option.map_some, Nat.mod_eq_of_lt (by omega), nextBlockSlot_eq lt fits]

/-- A schedule of three producers; the node has seen the second one sign block 2. -/
def waiting : ProducerPlugin :=
  { watermarks := AList.insert 2 2 ∅
    head := (⟨[⟨1, 5⟩, ⟨2, 6⟩, ⟨3, 7⟩], 0, 0⟩ : GenesisState).headerState .zero }

/-- The minimum, slot 9, begins the turn of the first producer. -/
theorem calculateNextBlockTime_isLeast_waiting : ∃ slot,
      IsLeast {slot | 7 + waiting.minimumOffset 2 ≤ slot ∧ waiting.ScheduledAt 2 slot} slot ∧
      (slot < 2 ^ 32 → waiting.calculateNextBlockTime 2 7 = some (toTimePoint slot)) :=
  calculateNextBlockTime_isLeast waiting 2 7 (by decide) ⟨⟨2, 6⟩, by decide, rfl⟩

example : waiting.minimumOffset 2 = 2 := by decide

example : waiting.calculateNextBlockTime 2 7 = some (toTimePoint 12) := by decide

end ProducerPlugin

end CodexRelay.Plugins
