import Mathlib.Data.List.Sort
import Mathlib.Data.List.AList

/-!
Contract: elements of finite lists that are chosen by an order.

Owns:
- `firstBy`, which stands for `begin()` of an ordered index, and its characterisation;
- `nthElement`, the value at a position of the ascending arrangement;
- its counting characterisation, from which every bound and every comparison of
  two order statistics in this development is derived;
- the values of an association list in which one key is overridden.

Does not own: what the values stand for.
-/

namespace CodexRelay.Library

section

variable {α : Type*} (precedes : α → α → Prop) [DecidableRel precedes]

def firstBy : List α → Option α
  | [] => none
  | value :: rest =>
    match firstBy rest with
    | none => some value
    | some best => if precedes best value then some best else some value

variable {precedes} {values : List α} {value : α}

theorem firstBy_eq_none : firstBy precedes values = none ↔ values = [] := by
  cases values with
  | nil => simp [firstBy]
  | cons value rest =>
    cases found : firstBy precedes rest with
    | none => simp [firstBy, found]
    | some best =>
      simp only [firstBy, found, reduceCtorEq, iff_false]
      split <;> simp

theorem firstBy_mem (first : firstBy precedes values = some value) : value ∈ values := by
  induction values generalizing value with
  | nil => simp [firstBy] at first
  | cons head rest ih =>
    cases found : firstBy precedes rest with
    | none =>
      simp only [firstBy, found, Option.some.injEq] at first
      simp [first]
    | some best =>
      simp only [firstBy, found] at first
      split at first
      · obtain rfl := Option.some.inj first
        exact List.mem_cons_of_mem _ (ih found)
      · obtain rfl := Option.some.inj first
        exact List.mem_cons_self

theorem firstBy_not_precedes (asymm : ∀ {first second}, precedes first second →
      ¬ precedes second first)
    (weak : ∀ {first second third}, ¬ precedes first second → ¬ precedes second third →
      ¬ precedes first third)
    (first : firstBy precedes values = some value) :
    ∀ other ∈ values, ¬ precedes other value := by
  have irrefl : ∀ value, ¬ precedes value value := fun _ before => asymm before before
  induction values generalizing value with
  | nil => simp
  | cons head rest ih =>
    intro other member
    cases found : firstBy precedes rest with
    | none =>
      simp only [firstBy, found, Option.some.injEq] at first
      obtain rfl := firstBy_eq_none.mp found
      obtain rfl := List.mem_singleton.mp member
      exact first ▸ irrefl _
    | some best =>
      have restFirst := ih found
      simp only [firstBy, found] at first
      split at first
      case isTrue before =>
        obtain rfl := Option.some.inj first
        rcases List.mem_cons.mp member with rfl | older
        · exact asymm before
        · exact restFirst other older
      case isFalse notBefore =>
        obtain rfl := Option.some.inj first
        rcases List.mem_cons.mp member with rfl | older
        · exact irrefl _
        · exact weak (restFirst other older) notBefore

end

open List

variable {α : Type*} [LinearOrder α]

variable {position : Nat}

/-- The element at position `position` once `values` is arranged in ascending
order; `none` when the position is out of range. -/
def nthElement (position : Nat) (values : List α) : Option α :=
  (values.insertionSort (· ≤ ·))[position]?

theorem nthElement_perm {left right : List α} (same : left.Perm right) :
    nthElement position left = nthElement position right := by
  unfold nthElement
  congr 1
  exact Perm.eq_of_pairwise' (pairwise_insertionSort _ left) (pairwise_insertionSort _ right)
    ((perm_insertionSort _ left).trans (same.trans (perm_insertionSort _ right).symm))

theorem nthElement_isSome {values : List α} (below : position < values.length) :
    ∃ value, nthElement position values = some value := by
  have inRange : position < (values.insertionSort (· ≤ ·)).length := by
    simpa [length_insertionSort] using below
  exact ⟨_, getElem?_eq_getElem inRange⟩

section

variable {values : List α} {value bound : α} (sorted : values.Pairwise (· ≤ ·))
  (found : values[position]? = some value)

include sorted found

private theorem countP_le_of_getElem (reached : bound ≤ value)
    : values.countP (· < bound) ≤ position := by
  induction values generalizing position with
  | nil => simp at found
  | cons head tail ih =>
    rw [pairwise_cons] at sorted
    cases position with
    | zero =>
      -- The head is the minimum, so nothing lies below the bound.
      obtain rfl : head = value := by simpa using found
      rw [countP_eq_zero.mpr]
      intro other member
      rcases mem_cons.mp member with rfl | member
      · simpa using reached
      · simpa using reached.trans (sorted.1 other member)
    | succ position =>
      have rest := ih sorted.2 (by simpa using found)
      rw [countP_cons]
      split_ifs <;> omega

private theorem lt_countP_of_getElem (short : value < bound)
    : position < values.countP (· < bound) := by
  induction values generalizing position with
  | nil => simp at found
  | cons head tail ih =>
    rw [pairwise_cons] at sorted
    cases position with
    | zero =>
      obtain rfl : head = value := by simpa using found
      simp [short]
    | succ position =>
      have tailFound : tail[position]? = some value := by simpa using found
      have rest := ih sorted.2 tailFound
      have headShort : head < bound := (sorted.1 value (mem_of_getElem? tailFound)).trans_lt short
      rw [countP_cons, if_pos (by simpa using headShort)]
      omega

end

/-- An order statistic reaches `bound` exactly when at most `position` values
lie strictly below `bound`. -/
theorem le_nthElement_iff {values : List α} {value bound : α}
    (found : nthElement position values = some value) :
    bound ≤ value ↔ values.countP (· < bound) ≤ position := by
  have sorted := pairwise_insertionSort (· ≤ ·) values
  have sameCount := (perm_insertionSort (· ≤ ·) values).countP_eq (· < bound)
  rw [← sameCount]
  constructor
  · intro reached
    exact countP_le_of_getElem sorted found reached
  · intro few
    by_contra short
    have many := lt_countP_of_getElem sorted found (not_le.mp short)
    omega

theorem nthElement_getD_le {values : List α} {default bound : α}
    (all : ∀ value ∈ values, value ≤ bound) (defaultLe : default ≤ bound) :
    (nthElement position values).getD default ≤ bound := by
  cases found : nthElement position values with
  | none => exact defaultLe
  | some value =>
    exact all value ((perm_insertionSort (· ≤ ·) values).mem_iff.mp (mem_of_getElem? found))

/-! ### Overriding one key -/

section Override

variable {κ ν : Type*} [DecidableEq κ]

/-- The values of an association list as they read once `key` is given `value`. -/
def overriddenValues (entries : List (Sigma fun _ : κ => ν)) (key : κ) (value : ν) : List ν :=
  entries.map fun entry => if entry.1 = key then value else entry.2

theorem overriddenValues_length (entries : List (Sigma fun _ : κ => ν)) (key : κ) (value : ν) :
    (overriddenValues entries key value).length = entries.length := by
  simp [overriddenValues]

theorem overriddenValues_of_notMem {entries : List (Sigma fun _ : κ => ν)} {key : κ} (value : ν)
    (absent : key ∉ entries.keys) : overriddenValues entries key value = entries.map (·.2) := by
  apply map_congr_left
  intro entry member
  rw [if_neg]
  rintro rfl
  exact absent (mem_keys_of_mem member)

/-- Overriding a present key reads the same values as storing them. -/
theorem overriddenValues_perm_insert (map : AList fun _ : κ => ν) {key : κ} (value : ν)
    (present : key ∈ map) :
    (overriddenValues map.entries key value).Perm ((map.insert key value).entries.map (·.2)) := by
  rw [AList.entries_insert, map_cons]
  have nodup := map.nodupKeys
  have inKeys : key ∈ map.entries.keys := present
  revert nodup inKeys
  induction map.entries with
  | nil => simp
  | cons entry rest ih =>
    intro nodup inKeys
    rw [nodupKeys_cons] at nodup
    by_cases own : entry.1 = key
    · have absent : key ∉ rest.keys := own ▸ nodup.1
      have tail := overriddenValues_of_notMem value absent
      rw [overriddenValues] at tail ⊢
      rw [map_cons, if_pos own, tail, kerase_cons_eq own.symm]
    · have inRest : key ∈ rest.keys := by
        rw [keys_cons, mem_cons] at inKeys
        exact inKeys.resolve_left fun same => own same.symm
      have tail := ih nodup.2 inRest
      rw [overriddenValues] at tail ⊢
      rw [map_cons, if_neg own, kerase_cons_ne (Ne.symm own), map_cons]
      exact (tail.cons entry.2).trans (List.Perm.swap _ _ _)

end Override

end CodexRelay.Library
