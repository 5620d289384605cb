import Mathlib

/-!
Contract: shares of periods that their holders settle late.

A holder collects age, the product of a stake and a time. A period is closed with a total of the age
that was collected in it. A holder that settles takes the age it collected in every period that was
closed since it settled last, and starts from there. Periods that do not count are passed over.

Owns:
- what a holder takes from each period, and the periods that are left;
- `Covered`, that the totals cover what all holders would take and that a reserve covers what they
  collected since the last period;
- how it is kept when a holder settles, enters or changes its stake, when time passes, when a period
  is closed, and when the first period is dropped.
-/

namespace CodexRelay.Library

open Multiset

structure Holder where
  stake : Int
  height : Nat
  age : Int

structure Period where
  close : Nat
  total : Int

variable (counts : Int → Prop) [DecidablePred counts]

namespace Holder

def Owes (holder : Holder) (period : Period) : Prop :=
  holder.height < period.close ∧ counts period.total

instance (holder : Holder) (period : Period) : Decidable (holder.Owes counts period) :=
  inferInstanceAs (Decidable (_ ∧ _))

def accrued (now : Nat) (holder : Holder) : Int :=
  holder.age + holder.stake * (now - holder.height)

def take (holder : Holder) (period : Period) : Int :=
  if holder.Owes counts period then holder.accrued period.close else 0

def advance (holder : Holder) (period : Period) : Holder :=
  if holder.Owes counts period then { holder with height := period.close, age := 0 } else holder

def walk (holder : Holder) (periods : List Period) : Holder :=
  periods.foldl (fun current period => current.advance counts period) holder

def takes (holder : Holder) : List Period → List Int
  | [] => []
  | period :: periods =>
    holder.take counts period :: takes (holder.advance counts period) periods

def settle (holder : Holder) : List Period → List Period
  | [] => []
  | period :: periods =>
    { period with total := period.total - holder.take counts period } ::
      settle (holder.advance counts period) periods

/-- Stake and age are not negative, and the holder did not settle in the future. -/
structure Valid (now : Nat) (holder : Holder) : Prop where
  stake : 0 ≤ holder.stake
  age : 0 ≤ holder.age
  height : holder.height ≤ now

def Idle (holder : Holder) : Prop := holder.stake = 0 ∧ holder.age = 0

instance (holder : Holder) : Decidable holder.Idle := inferInstanceAs (Decidable (_ ∧ _))

variable {counts} {holder : Holder} {period : Period} {now : Nat}

theorem take_of_owes (owes : holder.Owes counts period) :
    holder.take counts period = holder.accrued period.close :=
  if_pos owes

theorem take_of_not_owes (settled : ¬ holder.Owes counts period) : holder.take counts period = 0 :=
  if_neg settled

theorem advance_of_owes (owes : holder.Owes counts period) :
    holder.advance counts period = { holder with height := period.close, age := 0 } :=
  if_pos owes

theorem advance_of_not_owes (settled : ¬ holder.Owes counts period) :
    holder.advance counts period = holder :=
  if_neg settled

omit [DecidablePred counts] in
theorem not_owes_of_le (settled : period.close ≤ holder.height) : ¬ holder.Owes counts period :=
  fun owes => absurd owes.1 (not_lt.mpr settled)

@[simp] theorem advance_stake (holder : Holder) (period : Period) :
    (holder.advance counts period).stake = holder.stake := by
  unfold advance
  split_ifs
  · rfl
  · rfl

theorem height_le_advance (holder : Holder) (period : Period) :
    holder.height ≤ (holder.advance counts period).height := by
  unfold advance
  split_ifs with owes
  · exact owes.1.le
  · exact le_rfl

theorem height_le_walk (holder : Holder) (periods : List Period) :
    holder.height ≤ (holder.walk counts periods).height := by
  induction periods generalizing holder with
  | nil => exact le_rfl
  | cons period periods ih =>
    exact (holder.height_le_advance period).trans (ih _)

section

variable (valid : holder.Valid now)

include valid

theorem Valid.accrued_nonneg {time : Nat} (later : holder.height ≤ time) :
    0 ≤ holder.accrued time := by
  have elapsed : (0 : Int) ≤ time - holder.height := by omega
  exact add_nonneg valid.age (mul_nonneg valid.stake elapsed)

theorem Valid.take_nonneg : 0 ≤ holder.take counts period := by
  by_cases owes : holder.Owes counts period
  · rw [take_of_owes owes]
    exact valid.accrued_nonneg owes.1.le
  · rw [take_of_not_owes owes]

theorem Valid.advance (past : period.close ≤ now) : (holder.advance counts period).Valid now := by
  by_cases owes : holder.Owes counts period
  · rw [advance_of_owes owes]
    exact ⟨valid.stake, le_rfl, past⟩
  · rw [advance_of_not_owes owes]
    exact valid

theorem Valid.walk {periods : List Period} (past : ∀ period ∈ periods, period.close ≤ now) :
    (holder.walk counts periods).Valid now := by
  induction periods generalizing holder with
  | nil => exact valid
  | cons period periods ih =>
    exact ih (valid.advance (past period List.mem_cons_self))
      fun other mem => past other (List.mem_cons_of_mem _ mem)

theorem Valid.idle_of_accrued {time : Nat} (later : holder.height < time)
    (nothing : holder.accrued time = 0) : holder.Idle := by
  have elapsed : (0 : Int) < time - holder.height := by omega
  have product := mul_nonneg valid.stake elapsed.le
  have age := valid.age
  unfold Holder.accrued at nothing
  refine ⟨?_, by omega⟩
  have stakeless : holder.stake * (time - holder.height) = 0 := by omega
  exact (mul_eq_zero.mp stakeless).resolve_right elapsed.ne'

end

theorem Idle.accrued (idle : holder.Idle) (time : Nat) : holder.accrued time = 0 := by
  unfold Holder.accrued
  rw [idle.1, idle.2, zero_mul, add_zero]

theorem Idle.take (idle : holder.Idle) : holder.take counts period = 0 := by
  unfold Holder.take
  rw [idle.accrued, ite_self]

theorem Idle.advance (idle : holder.Idle) : (holder.advance counts period).Idle := by
  by_cases owes : holder.Owes counts period
  · rw [advance_of_owes owes]
    exact ⟨idle.1, rfl⟩
  · rwa [advance_of_not_owes owes]

end Holder

/-! ### Cover -/

/-- The periods cover what the holders would take from them, and the reserve what they have then. -/
def Covered (now : Nat) (reserve : Int) : Multiset Holder → List Period → Prop
  | holders, [] => (holders.map (Holder.accrued now)).sum ≤ reserve
  | holders, period :: periods =>
    0 ≤ period.total ∧
      (holders.map fun holder => holder.take counts period).sum ≤ period.total ∧
      Covered now reserve (holders.map fun holder => holder.advance counts period) periods

def active (holders : Multiset Holder) : Multiset Holder := holders.filter fun holder => ¬ holder.Idle

variable {counts} {now : Nat} {reserve : Int} {holders others : Multiset Holder} {holder : Holder}
  {period : Period} {periods : List Period}

theorem active_cons_of_idle (idle : holder.Idle) (holders : Multiset Holder) :
    active (holder ::ₘ holders) = active holders :=
  filter_cons_of_neg (p := fun other : Holder => ¬ other.Idle) holders (not_not.mpr idle)

theorem active_cons_of_not_idle (busy : ¬ holder.Idle) (holders : Multiset Holder) :
    active (holder ::ₘ holders) = holder ::ₘ active holders :=
  filter_cons_of_pos (p := fun other : Holder => ¬ other.Idle) holders busy

theorem active_cons_congr (same : active holders = active others) (holder : Holder) :
    active (holder ::ₘ holders) = active (holder ::ₘ others) := by
  by_cases idle : holder.Idle
  · rw [active_cons_of_idle idle, active_cons_of_idle idle, same]
  · rw [active_cons_of_not_idle idle, active_cons_of_not_idle idle, same]

theorem sum_active {measure : Holder → Int} (nothing : ∀ holder : Holder, holder.Idle → measure holder = 0)
    (holders : Multiset Holder) :
    ((active holders).map measure).sum = (holders.map measure).sum := by
  induction holders using Multiset.induction with
  | empty => rfl
  | cons holder holders ih =>
    rw [map_cons, sum_cons, ← ih]
    by_cases idle : holder.Idle
    · rw [active_cons_of_idle idle, nothing holder idle, zero_add]
    · rw [active_cons_of_not_idle idle, map_cons, sum_cons]

/-- Two ways to move on, which agree on the holders that can take something. -/
theorem active_map_congr {left right : Holder → Holder}
    (leftIdle : ∀ holder : Holder, holder.Idle → (left holder).Idle)
    (rightIdle : ∀ holder : Holder, holder.Idle → (right holder).Idle)
    (agree : ∀ holder ∈ holders, holder.Idle ∨ left holder = right holder) :
    active (holders.map left) = active (holders.map right) := by
  induction holders using Multiset.induction with
  | empty => rfl
  | cons holder holders ih =>
    have rest := ih fun other mem => agree other (mem_cons_of_mem mem)
    rw [map_cons, map_cons]
    rcases agree holder (mem_cons_self holder holders) with idle | same
    · rw [active_cons_of_idle (leftIdle holder idle), active_cons_of_idle (rightIdle holder idle),
        rest]
    · rw [same]
      exact active_cons_congr rest _

theorem active_map_active {move : Holder → Holder}
    (moveIdle : ∀ holder : Holder, holder.Idle → (move holder).Idle) (holders : Multiset Holder) :
    active ((active holders).map move) = active (holders.map move) := by
  induction holders using Multiset.induction with
  | empty => rfl
  | cons holder holders ih =>
    rw [map_cons]
    by_cases idle : holder.Idle
    · rw [active_cons_of_idle idle, active_cons_of_idle (moveIdle holder idle), ih]
    · rw [active_cons_of_not_idle idle, map_cons]
      exact active_cons_congr ih _

theorem covered_active :
    Covered counts now reserve (active holders) periods ↔
      Covered counts now reserve holders periods := by
  induction periods generalizing holders with
  | nil =>
    unfold Covered
    rw [sum_active fun holder idle => idle.accrued now]
  | cons period periods ih =>
    unfold Covered
    rw [sum_active fun holder idle => idle.take, ← ih,
      active_map_active fun holder idle => idle.advance, ih]

theorem covered_congr (same : active holders = active others) :
    Covered counts now reserve holders periods ↔ Covered counts now reserve others periods := by
  rw [← covered_active, same, covered_active]

section

variable (covered : Covered counts now reserve holders periods)

include covered

theorem Covered.total_nonneg (period : Period) (mem : period ∈ periods) : 0 ≤ period.total := by
  induction periods generalizing holders with
  | nil => cases mem
  | cons first periods ih =>
    rcases List.mem_cons.mp mem with rfl | mem
    · exact covered.1
    · exact ih covered.2.2 mem

theorem Covered.reserve_nonneg (valid : ∀ holder ∈ holders, holder.Valid now)
    (past : ∀ period ∈ periods, period.close ≤ now) : 0 ≤ reserve := by
  induction periods generalizing holders with
  | nil =>
    refine le_trans (sum_nonneg ?_) covered
    intro amount mem
    obtain ⟨holder, present, rfl⟩ := Multiset.mem_map.mp mem
    exact (valid holder present).accrued_nonneg (valid holder present).height
  | cons period periods ih =>
    apply ih covered.2.2 _ fun other mem => past other (List.mem_cons_of_mem _ mem)
    intro advanced mem
    obtain ⟨holder, present, rfl⟩ := Multiset.mem_map.mp mem
    exact (valid holder present).advance (past period List.mem_cons_self)

end

/-- A holder that has settled just now only has a part of the reserve. -/
theorem covered_cons_current (past : ∀ period ∈ periods, period.close ≤ now)
    (current : holder.height = now) :
    Covered counts now reserve (holder ::ₘ holders) periods ↔
      Covered counts now (reserve - holder.age) holders periods := by
  induction periods generalizing holders with
  | nil =>
    have age : holder.accrued now = holder.age := by
      unfold Holder.accrued
      rw [current, sub_self, mul_zero, add_zero]
    unfold Covered
    rw [map_cons, sum_cons, age]
    omega
  | cons period periods ih =>
    have settled : ¬ holder.Owes counts period := by
      apply Holder.not_owes_of_le
      rw [current]
      exact past period List.mem_cons_self
    unfold Covered
    rw [map_cons, sum_cons, Holder.take_of_not_owes settled, zero_add,
      map_cons, Holder.advance_of_not_owes settled,
      ih fun other mem => past other (List.mem_cons_of_mem _ mem)]

/-- Time passes, and the reserve grows by what the holders collect. -/
theorem Covered.wait (covered : Covered counts now reserve holders periods) (time : Nat)
    {stakes : Int} (stake : (holders.map Holder.stake).sum ≤ stakes) :
    Covered counts (now + time) (reserve + stakes * time) holders periods := by
  induction periods generalizing holders with
  | nil =>
    have later (holder : Holder) :
        holder.accrued (now + time) = holder.accrued now + holder.stake * time := by
      unfold Holder.accrued
      push_cast
      ring
    unfold Covered at covered ⊢
    rw [map_congr rfl fun holder _ => later holder, sum_map_add, sum_map_mul_right]
    have grown := mul_le_mul_of_nonneg_right stake (Int.natCast_nonneg time)
    exact add_le_add covered grown
  | cons period periods ih =>
    refine ⟨covered.1, covered.2.1, ih covered.2.2 ?_⟩
    rw [map_map, map_congr rfl fun holder _ => holder.advance_stake period]
    exact stake

theorem Covered.tail
    (covered : Covered counts now reserve (holder ::ₘ holders) (period :: periods)) :
    Covered counts now reserve (holder.advance counts period ::ₘ
      holders.map fun other => other.advance counts period) periods := by
  have rest := covered.2.2
  rwa [map_cons] at rest

theorem valid_tail (valid : ∀ other ∈ holder ::ₘ holders, other.Valid now)
    (past : period.close ≤ now) (other : Holder)
    (mem : other ∈ holder.advance counts period ::ₘ
      holders.map fun other => other.advance counts period) : other.Valid now := by
  rcases Multiset.mem_cons.mp mem with rfl | mem
  · exact (valid holder (mem_cons_self holder holders)).advance past
  · obtain ⟨old, present, rfl⟩ := Multiset.mem_map.mp mem
    exact (valid old (mem_cons_of_mem present)).advance past

section Valid

variable (positive : ∀ total : Int, 0 < total → counts total)

include positive

theorem Covered.settle (covered : Covered counts now reserve (holder ::ₘ holders) periods)
    (valid : ∀ other ∈ holder ::ₘ holders, other.Valid now)
    (past : ∀ period ∈ periods, period.close ≤ now) :
    Covered counts now (reserve - (holder.walk counts periods).accrued now) holders
      (holder.settle counts periods) := by
  induction periods generalizing holder holders with
  | nil =>
    unfold Covered at covered
    rw [map_cons, sum_cons] at covered
    exact le_sub_left_of_add_le covered
  | cons period periods ih =>
    have advanced := ih covered.tail (valid_tail valid (past period List.mem_cons_self))
      fun other mem => past other (List.mem_cons_of_mem _ mem)
    obtain ⟨total, taken, -⟩ := covered
    rw [map_cons, sum_cons] at taken
    have othersNonneg : ∀ amount ∈ holders.map fun other => other.take counts period,
        0 ≤ amount := by
      intro amount mem
      obtain ⟨other, present, rfl⟩ := Multiset.mem_map.mp mem
      exact (valid other (mem_cons_of_mem present)).take_nonneg
    have othersSum := sum_nonneg othersNonneg
    -- where the period stops to count, nobody else has anything in it
    have agree : ∀ other ∈ holders, other.Idle ∨ (other.Owes counts period ↔
        other.Owes counts { period with total := period.total - holder.take counts period }) := by
      intro other present
      by_cases late : other.height < period.close
      · by_cases left : 0 < period.total - holder.take counts period
        · have before : 0 < period.total := by
            have taken : 0 ≤ holder.take counts period :=
              (valid holder (mem_cons_self holder holders)).take_nonneg
            omega
          exact .inr ⟨fun _ => ⟨late, positive _ left⟩, fun _ => ⟨late, positive _ before⟩⟩
        · by_cases counted : counts period.total
          · have none : other.take counts period = 0 := by
              have part := single_le_sum othersNonneg _
                (mem_map_of_mem (fun other => other.take counts period) present)
              have := othersNonneg _
                (mem_map_of_mem (fun other => other.take counts period) present)
              omega
            rw [Holder.take_of_owes ⟨late, counted⟩] at none
            exact .inl ((valid other (mem_cons_of_mem present)).idle_of_accrued late none)
          · have same : holder.take counts period = 0 :=
              Holder.take_of_not_owes fun owes => counted owes.2
            refine .inr ?_
            rw [same, sub_zero]
      · exact .inr ⟨fun owes => absurd owes.1 late, fun owes => absurd owes.1 late⟩
    refine ⟨by show 0 ≤ period.total - _; omega, ?_, ?_⟩
    · have equal : (holders.map fun other => other.take counts
            { period with total := period.total - holder.take counts period }).sum =
          (holders.map fun other => other.take counts period).sum := by
        apply congrArg
        apply map_congr rfl
        intro other present
        rcases agree other present with idle | same
        · rw [idle.take, idle.take]
        · exact (if_congr same rfl rfl).symm
      rw [equal]
      show _ ≤ period.total - _
      omega
    · apply (covered_congr _).mp advanced
      apply active_map_congr (fun other idle => idle.advance) fun other idle => idle.advance
      intro other present
      rcases agree other present with idle | same
      · exact .inl idle
      · exact .inr (if_congr same rfl rfl)

/-- A period is closed with the reserve, before anyone settles at its time. -/
theorem Covered.close (covered : Covered counts now reserve holders periods)
    (valid : ∀ holder ∈ holders, holder.Valid now ∧ holder.height < now)
    (past : ∀ period ∈ periods, period.close < now) :
    Covered counts now 0 holders (periods ++ [{ close := now, total := reserve }]) := by
  induction periods generalizing holders with
  | nil =>
    have nonneg : ∀ amount ∈ holders.map (Holder.accrued now), 0 ≤ amount := by
      intro amount mem
      obtain ⟨holder, present, rfl⟩ := Multiset.mem_map.mp mem
      exact (valid holder present).1.accrued_nonneg (valid holder present).1.height
    have enough : (holders.map (Holder.accrued now)).sum ≤ reserve := covered
    have reserved : 0 ≤ reserve := le_trans (sum_nonneg nonneg) enough
    by_cases counted : counts reserve
    · have owes (holder : Holder) (present : holder ∈ holders) :
          holder.Owes counts { close := now, total := reserve } :=
        ⟨(valid holder present).2, counted⟩
      refine ⟨reserved, ?_, ?_⟩
      · rw [map_congr rfl fun holder present => Holder.take_of_owes (owes holder present)]
        exact enough
      · have collected (holder : Holder) (present : holder ∈ holders) :
            (holder.advance counts { close := now, total := reserve }).accrued now = 0 := by
          rw [Holder.advance_of_owes (owes holder present)]
          show 0 + holder.stake * (now - now) = 0
          rw [sub_self, mul_zero, add_zero]
        have nothing : (holders.map (Holder.accrued now ∘ fun holder =>
            holder.advance counts { close := now, total := reserve })).sum = 0 :=
          sum_eq_zero fun amount mem => by
            obtain ⟨holder, present, rfl⟩ := Multiset.mem_map.mp mem
            exact collected holder present
        show (Multiset.map _ _).sum ≤ 0
        rw [map_map, nothing]
    · have empty : reserve = 0 :=
        le_antisymm (not_lt.mp fun more => counted (positive _ more)) reserved
      have settled (holder : Holder) :
          ¬ holder.Owes counts { close := now, total := reserve } := fun owes => counted owes.2
      refine ⟨reserved, ?_, ?_⟩
      · rw [map_congr rfl fun holder _ => Holder.take_of_not_owes (settled holder)]
        simpa using reserved
      · rw [map_congr rfl fun holder _ => Holder.advance_of_not_owes (settled holder), map_id']
        rwa [empty] at enough
  | cons period periods ih =>
    refine ⟨covered.1, covered.2.1, ih covered.2.2 ?_ ?_⟩
    · intro advanced mem
      obtain ⟨holder, present, rfl⟩ := Multiset.mem_map.mp mem
      obtain ⟨holderValid, early⟩ := valid holder present
      have closed := past period List.mem_cons_self
      refine ⟨holderValid.advance closed.le, ?_⟩
      unfold Holder.advance
      split_ifs
      · exact closed
      · exact early
    · exact fun other mem => past other (List.mem_cons_of_mem _ mem)

end Valid

theorem Covered.drop (covered : Covered counts now reserve holders (period :: periods))
    (settled : ∀ holder ∈ holders, holder.Idle ∨ ¬ holder.Owes counts period) :
    Covered counts now reserve holders periods := by
  have same : active (holders.map fun holder => holder.advance counts period) =
      active (holders.map fun holder => holder) := by
    apply active_map_congr (fun holder idle => idle.advance) fun holder idle => idle
    intro holder present
    rcases settled holder present with idle | done
    · exact .inl idle
    · exact .inr (Holder.advance_of_not_owes done)
  rw [map_id'] at same
  exact (covered_congr same).mp covered.2.2

theorem Covered.cons (covered : Covered counts now reserve holders periods)
    (nonneg : 0 ≤ period.total) (settled : ∀ holder ∈ holders, ¬ holder.Owes counts period) :
    Covered counts now reserve holders (period :: periods) := by
  have nothing : holders.map (fun holder => holder.take counts period) = holders.map fun _ => 0 :=
    map_congr rfl fun holder mem => Holder.take_of_not_owes (settled holder mem)
  have same : holders.map (fun holder => holder.advance counts period) = holders.map id :=
    map_congr rfl fun holder mem => Holder.advance_of_not_owes (settled holder mem)
  refine ⟨nonneg, ?_, ?_⟩
  · rw [nothing, sum_map_zero]
    exact nonneg
  · rwa [same, map_id]

theorem Covered.take_le (covered : Covered counts now reserve (holder ::ₘ holders) (period :: periods))
    (valid : ∀ other ∈ holders, other.Valid now) : holder.take counts period ≤ period.total := by
  have taken := covered.2.1
  rw [map_cons, sum_cons] at taken
  have rest : 0 ≤ (holders.map fun other => other.take counts period).sum := by
    apply sum_nonneg
    intro amount mem
    obtain ⟨other, present, rfl⟩ := Multiset.mem_map.mp mem
    exact (valid other present).take_nonneg
  omega

theorem Covered.takes_le (covered : Covered counts now reserve holders periods) {index : Nat}
    (found : periods[index]? = some period) :
    0 ≤ period.total ∧
      (holders.map fun holder => (holder.takes counts periods).getD index 0).sum ≤ period.total := by
  induction periods generalizing holders index with
  | nil => cases found
  | cons first periods ih =>
    cases index with
    | zero =>
      cases found
      exact ⟨covered.1, covered.2.1⟩
    | succ index =>
      have rest := ih covered.2.2 found
      rw [map_map] at rest
      exact rest

end CodexRelay.Library
