import Mathlib

/-!
Contract: sets kept as sorted sequences without repetitions, and inclusion and intersection tests
that walk both sequences once.

Owns:
- `FlatSet` and `lowerBound` on the rest of a sorted sequence, also of rows sorted by a key;
- `scanSubset` and `scanIntersects`, which search on from where the last search ended;
- the extents of a set, and what they decide without a walk.
-/

namespace CodexRelay.Library

open List

variable {α : Type*} [LinearOrder α]

structure FlatSet (α : Type*) [LinearOrder α] where
  elements : List α
  sorted : elements.Pairwise (· < ·)

namespace FlatSet

instance : EmptyCollection (FlatSet α) := ⟨⟨[], .nil⟩⟩

/-- The rest of a sorted sequence from the first element that is not below a value. -/
def lowerBound (range : List α) (value : α) : List α := range.dropWhile (· < value)

/-- Whether all values are in the range. After a hit the search goes on behind it. -/
def scanSubset : List α → List α → Bool
  | [], _ => true
  | value :: values, range =>
    match lowerBound range value with
    | [] => false
    | found :: rest => if found ≠ value then false else scanSubset values rest

def scanIntersects : List α → List α → Bool
  | [], _ => false
  | value :: values, range =>
    match lowerBound range value with
    | [] => false
    | found :: rest => if found = value then true else scanIntersects values (found :: rest)

/-! ### The walks -/

section Keyed

variable {ρ : Type*} {key : ρ → α} {rows : List ρ} {row : ρ} {bound : α}

/-- The rows from a bound on, in a sequence that is sorted by a key. -/
theorem mem_dropWhile_lt (sorted : rows.Pairwise (key · < key ·)) :
    row ∈ rows.dropWhile (key · < bound) ↔ row ∈ rows ∧ bound ≤ key row := by
  induction rows with
  | nil => simp
  | cons first rows ih =>
    obtain ⟨before, sorted⟩ := pairwise_cons.mp sorted
    rw [dropWhile_cons, mem_cons]
    by_cases below : key first < bound
    · rw [if_pos (decide_eq_true below), ih sorted]
      constructor
      · exact fun ⟨member, above⟩ => ⟨.inr member, above⟩
      · rintro ⟨rfl | member, above⟩
        · exact absurd below above.not_gt
        · exact ⟨member, above⟩
    · rw [if_neg (by simpa using below), mem_cons]
      constructor
      · rintro (rfl | member)
        · exact ⟨.inl rfl, not_lt.mp below⟩
        · exact ⟨.inr member, (not_lt.mp below).trans (before row member).le⟩
      · exact And.left

end Keyed

section

variable {range : List α} (sorted : range.Pairwise (· < ·))

include sorted

theorem pairwise_lowerBound (value : α) : (lowerBound range value).Pairwise (· < ·) :=
  sorted.sublist (dropWhile_sublist _)

theorem mem_lowerBound {value other : α} :
    other ∈ lowerBound range value ↔ other ∈ range ∧ value ≤ other :=
  mem_dropWhile_lt sorted

end

section

variable {values range : List α} (sortedValues : values.Pairwise (· < ·))
  (sorted : range.Pairwise (· < ·))

include sortedValues sorted

theorem scanSubset_eq_true : scanSubset values range = true ↔ values ⊆ range := by
  induction values generalizing range with
  | nil => simp [scanSubset]
  | cons value values ih =>
    obtain ⟨below, sortedLater⟩ := pairwise_cons.mp sortedValues
    have sortedRest := pairwise_lowerBound sorted value
    have member := fun other => @mem_lowerBound _ _ range sorted value other
    rw [scanSubset]
    generalize lowerBound range value = bound at sortedRest member
    cases bound with
    | nil =>
      simp only [Bool.false_eq_true, false_iff]
      intro subset
      have found := (member value).mpr ⟨subset mem_cons_self, le_rfl⟩
      cases found
    | cons found rest =>
      obtain ⟨foundBelow, sortedRest⟩ := pairwise_cons.mp sortedRest
      dsimp only
      split_ifs with differs
      · simp only [false_iff]
        intro subset
        -- the value is in the rest, behind a greater element
        have inRest := (member value).mpr ⟨subset mem_cons_self, le_rfl⟩
        rcases mem_cons.mp inRest with same | behind
        · exact differs same.symm
        · have le := ((member found).mp mem_cons_self).2
          exact absurd (foundBelow value behind) (not_lt.mpr le)
      · rw [not_not] at differs
        subst differs
        rw [ih sortedLater sortedRest, cons_subset]
        constructor
        · intro subset
          refine ⟨((member found).mp mem_cons_self).1, fun other isValue => ?_⟩
          exact ((member other).mp (mem_cons_of_mem _ (subset isValue))).1
        · rintro ⟨-, subset⟩ other isValue
          have inRest := (member other).mpr ⟨subset isValue, (below other isValue).le⟩
          rcases mem_cons.mp inRest with same | behind
          · exact absurd same (below other isValue).ne'
          · exact behind

theorem scanIntersects_eq_true :
    scanIntersects values range = true ↔ ∃ value ∈ values, value ∈ range := by
  induction values generalizing range with
  | nil => simp [scanIntersects]
  | cons value values ih =>
    obtain ⟨below, sortedLater⟩ := pairwise_cons.mp sortedValues
    have sortedRest := pairwise_lowerBound sorted value
    have member := fun other => @mem_lowerBound _ _ range sorted value other
    rw [scanIntersects]
    generalize lowerBound range value = bound at sortedRest member
    -- the values that are left are above this one, so they are in the range as in its rest
    have later : ∀ other ∈ values, other ∈ range → other ∈ bound := fun other isValue inRange =>
      (member other).mpr ⟨inRange, (below other isValue).le⟩
    have self : value ∈ range → value ∈ bound := fun inRange =>
      (member value).mpr ⟨inRange, le_rfl⟩
    rw [exists_mem_cons_iff]
    cases bound with
    | nil =>
      simp only [Bool.false_eq_true, false_iff]
      rintro (inRange | ⟨other, isValue, inRange⟩)
      · cases self inRange
      · cases later other isValue inRange
    | cons found rest =>
      dsimp only
      split_ifs with same
      · subst same
        simp only [true_iff]
        exact .inl ((member found).mp mem_cons_self).1
      · rw [ih sortedLater sortedRest]
        constructor
        · rintro ⟨other, isValue, inRest⟩
          exact .inr ⟨other, isValue, ((member other).mp inRest).1⟩
        · rintro (inRange | ⟨other, isValue, inRange⟩)
          · rcases mem_cons.mp (self inRange) with isFound | behind
            · exact absurd isFound.symm same
            · have le := ((member found).mp mem_cons_self).2
              have greater := (pairwise_cons.mp sortedRest).1 value behind
              exact absurd greater (not_lt.mpr le)
          · exact ⟨other, isValue, later other isValue inRange⟩

end

/-! ### Extents -/

def withinExtents (values set : FlatSet α) : Bool :=
  match values.elements.head?, values.elements.getLast?, set.elements.head?,
    set.elements.getLast? with
  | some first, some last, some least, some greatest => decide (least ≤ first ∧ last ≤ greatest)
  | _, _, _, _ => false

def overlapExtents (values set : FlatSet α) : Bool :=
  match values.elements.head?, values.elements.getLast?, set.elements.head?,
    set.elements.getLast? with
  | some first, some last, some least, some greatest => decide (first ≤ greatest ∧ least ≤ last)
  | _, _, _, _ => false

/-- A nonempty set has a first and a last element, and all others are between them. -/
theorem exists_extents {set : FlatSet α} (nonempty : set.elements ≠ []) :
    ∃ least greatest, set.elements.head? = some least ∧ set.elements.getLast? = some greatest ∧
      least ∈ set.elements ∧ greatest ∈ set.elements ∧
        ∀ element ∈ set.elements, least ≤ element ∧ element ≤ greatest := by
  refine ⟨set.elements.head nonempty, set.elements.getLast nonempty, head?_eq_some_head _,
    getLast?_eq_some_getLast _, head_mem _, getLast_mem _, ?_⟩
  intro element member
  have weak : set.elements.Pairwise (· ≤ ·) := set.sorted.imp le_of_lt
  exact ⟨weak.rel_head member, weak.rel_getLast member⟩

theorem withinExtents_of_subset {values set : FlatSet α} (nonempty : values.elements ≠ [])
    (subset : values.elements ⊆ set.elements) : withinExtents values set = true := by
  obtain ⟨first, last, isFirst, isLast, firstMember, lastMember, -⟩ := exists_extents nonempty
  have setNonempty := ne_nil_of_mem (subset firstMember)
  obtain ⟨least, greatest, isLeast, isGreatest, -, -, between⟩ := exists_extents setNonempty
  unfold withinExtents
  rw [isFirst, isLast, isLeast, isGreatest]
  exact decide_eq_true ⟨(between first (subset firstMember)).1, (between last (subset lastMember)).2⟩

theorem overlapExtents_of_mem {values set : FlatSet α} {common : α}
    (inValues : common ∈ values.elements) (inSet : common ∈ set.elements) :
    overlapExtents values set = true := by
  obtain ⟨first, last, isFirst, isLast, -, -, betweenValues⟩ :=
    exists_extents (ne_nil_of_mem inValues)
  obtain ⟨least, greatest, isLeast, isGreatest, -, -, between⟩ :=
    exists_extents (ne_nil_of_mem inSet)
  have values := betweenValues common inValues
  have set := between common inSet
  unfold overlapExtents
  rw [isFirst, isLast, isLeast, isGreatest]
  exact decide_eq_true ⟨values.1.trans set.2, set.1.trans values.2⟩

end FlatSet

end CodexRelay.Library
