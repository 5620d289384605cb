import Mathlib

/-!
Contract: a sweep over an ordered set that changes while it is swept.

Owns:
- `Sweep`: the least row that is due is visited, arbitrary work follows, and the search goes on
  from the key that was next before the work;
- that no row is skipped, repeated or visited out of order, if the work makes no row due.

The work may remove any row. `Present` says whether a row is still there.
-/

namespace CodexRelay.Library

open List

variable {σ ρ κ : Type*} [LinearOrder κ] {key : ρ → κ} {Due Present : σ → ρ → Prop}

/-- What one visit does: the row is due, and of all others those that are still there stay due, and
no others become due. -/
structure Visit (key : ρ → κ) (Due Present : σ → ρ → Prop) (bound : κ) (state : σ) (row : ρ)
    (after : σ) : Prop where
  due : Due state row
  inRange : bound ≤ key row
  shrinks : ∀ other, Due after other → Due state other
  keeps : ∀ other, Due state other → other ≠ row → Present after other → Due after other

inductive Sweep (key : ρ → κ) (Due Present : σ → ρ → Prop) : κ → σ → List (ρ × σ) → Prop where
  | finished {bound : κ} {state : σ} (none : ∀ row, Due state row → ¬ bound ≤ key row) :
      Sweep key Due Present bound state []
  | last {bound : κ} {state : σ} {row : ρ} {after : σ}
      (visit : Visit key Due Present bound state row after)
      (only : ∀ other, Due state other → bound ≤ key other → other = row) :
      Sweep key Due Present bound state [(row, after)]
  | more {bound next : κ} {state : σ} {row : ρ} {after : σ} {visits : List (ρ × σ)}
      (visit : Visit key Due Present bound state row after) (behind : key row < next)
      (gap : ∀ other, Due state other → bound ≤ key other → other = row ∨ next ≤ key other)
      (later : Sweep key Due Present next after visits) :
      Sweep key Due Present bound state ((row, after) :: visits)

namespace Sweep

variable {bound : κ} {state : σ} {visits : List (ρ × σ)}

section

variable (sweep : Sweep key Due Present bound state visits)

include sweep

theorem due : ∀ visit ∈ visits, Due state visit.1 ∧ bound ≤ key visit.1 := by
  induction sweep with
  | finished => exact fun _ member => absurd member not_mem_nil
  | last visit =>
    intro other member
    obtain rfl := mem_singleton.mp member
    exact ⟨visit.due, visit.inRange⟩
  | more visit behind _ _ ih =>
    intro other member
    rcases mem_cons.mp member with rfl | later
    · exact ⟨visit.due, visit.inRange⟩
    · obtain ⟨isDue, inRange⟩ := ih other later
      exact ⟨visit.shrinks _ isDue, (visit.inRange.trans behind.le).trans inRange⟩

/-- The visits are in the order of the keys, and no row is visited twice. -/
theorem ordered : (visits.map fun visit => key visit.1).Pairwise (· < ·) := by
  induction sweep with
  | finished => exact .nil
  | last => exact pairwise_singleton _ _
  | more visit behind _ later ih =>
    rw [map_cons, pairwise_cons]
    refine ⟨fun other member => ?_, ih⟩
    obtain ⟨laterVisit, isLater, rfl⟩ := mem_map.mp member
    exact behind.trans_le (later.due laterVisit isLater).2

/-- Every row that is due is visited, or an earlier visit left a state without it. -/
theorem visited {row : ρ} (isDue : Due state row) (inRange : bound ≤ key row) :
    (∃ after, (row, after) ∈ visits) ∨
      ∃ visit ∈ visits, key visit.1 < key row ∧ ¬ Present visit.2 row := by
  induction sweep with
  | finished none => exact absurd inRange (none row isDue)
  | last visit only =>
    obtain rfl := only row isDue inRange
    exact .inl ⟨_, mem_singleton.mpr rfl⟩
  | more visit behind gap later ih =>
    rename_i after _
    rcases gap row isDue inRange with rfl | next
    · exact .inl ⟨_, mem_cons_self⟩
    · have smaller := behind.trans_le next
      by_cases there : Present after row
      · have differs : row ≠ _ := fun same => smaller.ne (congrArg key same).symm
        rcases ih (visit.keeps row isDue differs there) next with
          ⟨state, member⟩ | ⟨earlier, member, before, gone⟩
        · exact .inl ⟨state, mem_cons_of_mem _ member⟩
        · exact .inr ⟨earlier, mem_cons_of_mem _ member, before, gone⟩
      · exact .inr ⟨_, mem_cons_self, smaller, there⟩

end

end Sweep

end CodexRelay.Library
