import Mathlib.Data.List.Sort

/-!
Contract: the first places of a ranking.

Owns:
- `insertWithin`, an insertion that gives up after a number of places, and that these places are those
  of the whole ranking;
- that insertion sort keeps the order of elements that rank equally.

Does not own: what is ranked.
-/

namespace CodexRelay.Library

open List

variable {α : Type*} (ranks : α → α → Prop) [DecidableRel ranks]

/-- The element goes in front of the first one that it ranks with or above, if this is among the first
places. -/
def insertWithin (element : α) : Nat → List α → List α
  | 0, values => values
  | _ + 1, [] => [element]
  | places + 1, value :: values =>
    if ranks element value then element :: value :: values
    else value :: insertWithin element places values

variable {ranks} {element : α} {values ranking : List α} {places : Nat}

theorem insertIdx_append_length (front back : List α) (element : α) :
    (front ++ back).insertIdx front.length element = front ++ element :: back := by
  induction front with
  | nil => rfl
  | cons value front ih => exact congrArg (value :: ·) ih

theorem take_insertWithin : (insertWithin ranks element places values).take places =
    (values.orderedInsert ranks element).take places := by
  induction values generalizing places with
  | nil => cases places <;> rfl
  | cons value values ih =>
    cases places with
    | zero => rfl
    | succ places =>
      rw [insertWithin, orderedInsert_cons]
      split_ifs
      · rfl
      · rw [take_succ_cons, take_succ_cons, ih]

theorem take_orderedInsert : ((values.take places).orderedInsert ranks element).take places =
    (values.orderedInsert ranks element).take places := by
  induction values generalizing places with
  | nil => rw [take_nil]
  | cons value values ih =>
    cases places with
    | zero => rfl
    | succ places =>
      rw [take_succ_cons, orderedInsert_cons, orderedInsert_cons]
      split_ifs
      · have cut : (value :: values.take places).take places = (value :: values).take places := by
          rw [← take_succ_cons, take_take, min_eq_left (Nat.le_succ _)]
        rw [take_succ_cons, take_succ_cons, cut]
      · rw [take_succ_cons, take_succ_cons, ih]

/-- A list that has the first places of a ranking keeps them. -/
theorem take_insertWithin_of_take_eq (same : values.take places = ranking.take places) :
    (insertWithin ranks element places values).take places =
      (ranking.orderedInsert ranks element).take places := by
  rw [take_insertWithin, ← take_orderedInsert, same, take_orderedInsert]

section Stable

variable [Std.Total ranks] [IsTrans α ranks] {before : α → α → Prop}

theorem pairwise_orderedInsert (first : ∀ value ∈ values, before element value)
    (sorted : values.Pairwise fun left right =>
      ranks left right ∧ (ranks right left → before left right)) :
    (values.orderedInsert ranks element).Pairwise fun left right =>
      ranks left right ∧ (ranks right left → before left right) := by
  induction values with
  | nil => exact pairwise_singleton _ _
  | cons value values ih =>
    obtain ⟨above, rest⟩ := pairwise_cons.mp sorted
    obtain ⟨beforeValue, beforeRest⟩ := forall_mem_cons.mp first
    rw [orderedInsert_cons]
    split_ifs with rank
    · refine pairwise_cons.mpr ⟨forall_mem_cons.mpr ⟨⟨rank, fun _ => beforeValue⟩, ?_⟩, sorted⟩
      intro other mem
      exact ⟨IsTrans.trans _ _ _ rank (above other mem).1, fun _ => beforeRest other mem⟩
    · refine pairwise_cons.mpr ⟨fun other mem => ?_, ih beforeRest rest⟩
      rcases (mem_orderedInsert ranks).mp mem with rfl | mem
      · exact ⟨(total_of ranks value other).resolve_right rank, fun reversed => absurd reversed rank⟩
      · exact above other mem

/-- Elements that rank equally stay in their order. -/
theorem pairwise_insertionSort_stable (ordered : values.Pairwise before) :
    (values.insertionSort ranks).Pairwise fun left right =>
      ranks left right ∧ (ranks right left → before left right) := by
  induction values with
  | nil => exact .nil
  | cons value values ih =>
    obtain ⟨first, rest⟩ := pairwise_cons.mp ordered
    rw [insertionSort_cons]
    apply pairwise_orderedInsert _ (ih rest)
    intro other mem
    exact first other ((perm_insertionSort ranks values).mem_iff.mp mem)

end Stable

end CodexRelay.Library
