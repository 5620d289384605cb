import Mathlib

/-!
Contract: sums over the rows of a table with unique keys.

Owns:
- `rowSum`, the sum of a measure of the rows, and how it changes when a row is inserted, replaced
  or erased. The equations add the measure of the row that was there before, so that nothing is
  subtracted;
- `paidBy`, the sizes of the rows that somebody pays for, as a function of the payer;
- `total`, the sum of a measure whose values may be negative;
- the rows of a table up to their order, apart from the one at a key.
-/

namespace CodexRelay.Library

open List

section

variable {κ : Type*} {ρ : κ → Type*} (measure : (key : κ) → ρ key → Nat)

def rowSum (table : AList ρ) : Nat := (table.entries.map fun row => measure row.1 row.2).sum

end

section Sums

variable {κ : Type*} [DecidableEq κ] {ρ : κ → Type*} (measure : (key : κ) → ρ key → Nat)

/-- The measure of the row at a key; a missing row measures nothing. -/
def rowAt (table : AList ρ) (key : κ) : Nat := (table.lookup key).elim 0 (measure key)

theorem rowAt_of_lookup {table : AList ρ} {key : κ} {row : ρ key}
    (found : table.lookup key = some row) : rowAt measure table key = measure key row := by
  rw [rowAt, found]
  rfl

theorem rowAt_of_none {table : AList ρ} {key : κ} (missing : table.lookup key = none) :
    rowAt measure table key = 0 := by
  rw [rowAt, missing]
  rfl

theorem sum_kerase {M : Type*} [AddCommMonoid M] (measure : (key : κ) → ρ key → M) (key : κ)
    (rows : List (Sigma ρ)) :
    ((rows.kerase key).map fun row => measure row.1 row.2).sum +
      (rows.dlookup key).elim 0 (measure key) = (rows.map fun row => measure row.1 row.2).sum := by
  induction rows with
  | nil => exact add_zero 0
  | cons row rows ih =>
    obtain ⟨other, value⟩ := row
    by_cases same : key = other
    · subst same
      have erased : List.kerase key (⟨key, value⟩ :: rows) = rows := kerase_cons_eq rfl
      rw [erased, dlookup_cons_eq, map_cons, sum_cons]
      exact add_comm _ _
    · rw [kerase_cons_ne same, dlookup_cons_ne _ _ same, map_cons, map_cons,
        sum_cons, sum_cons, add_assoc, ih]

section

variable (table : AList ρ) (key : κ)

include table key

theorem rowSum_erase :
    rowSum measure (table.erase key) + rowAt measure table key = rowSum measure table :=
  sum_kerase measure key table.entries

theorem rowSum_insert_erase (row : ρ key) :
    rowSum measure (table.insert key row) = measure key row + rowSum measure (table.erase key) := by
  unfold rowSum
  rw [AList.entries_insert, map_cons, sum_cons]
  rfl

theorem rowSum_insert (row : ρ key) :
    rowSum measure (table.insert key row) + rowAt measure table key =
      rowSum measure table + measure key row := by
  have erased := rowSum_erase measure table key
  have inserted := rowSum_insert_erase measure table key row
  omega

theorem rowAt_le_rowSum : rowAt measure table key ≤ rowSum measure table := by
  have erased := rowSum_erase measure table key
  omega

end

theorem rowSum_congr {measure' : (key : κ) → ρ key → Nat} {table : AList ρ}
    (agree : ∀ key row, table.lookup key = some row → measure key row = measure' key row) :
    rowSum measure table = rowSum measure' table := by
  unfold rowSum
  rw [map_congr_left fun row member =>
    agree row.1 row.2 (AList.mem_lookup_iff.mpr member)]

/-! ### Payers -/

section Paid

variable {α : Type*} [DecidableEq α] (payer : (key : κ) → ρ key → α) (size : (key : κ) → ρ key → Nat)
  {table : AList ρ} {key : κ} {old : ρ key}

def paidBy (table : AList ρ) (account : α) : Int :=
  (rowSum (fun key row => if payer key row = account then size key row else 0) table : Nat)

theorem paidBy_insert_of_none (missing : table.lookup key = none) (row : ρ key) :
    paidBy payer size (table.insert key row) =
      paidBy payer size table + Pi.single (payer key row) (size key row : Int) := by
  funext account
  have inserted := rowSum_insert
    (fun key row => if payer key row = account then size key row else 0) table key row
  rw [rowAt_of_none _ missing] at inserted
  simp only [paidBy, Pi.add_apply, Pi.single_apply, eq_comm (a := account)]
  split_ifs at inserted ⊢ <;> omega

section

variable (found : table.lookup key = some old)

include found

/-- A row is replaced, while the sizes of the others stay the same. -/
theorem paidBy_insert_of_agree {size' : (key : κ) → ρ key → Nat}
    (agree : ∀ other ≠ key, ∀ row, table.lookup other = some row → size' other row = size other row)
    (row : ρ key) :
    paidBy payer size' (table.insert key row) =
      paidBy payer size table - Pi.single (payer key old) (size key old : Int) +
        Pi.single (payer key row) (size' key row : Int) := by
  funext account
  have inserted := rowSum_insert_erase
    (fun key row => if payer key row = account then size' key row else 0) table key row
  have erased := rowSum_erase
    (fun key row => if payer key row = account then size key row else 0) table key
  have rest : rowSum (fun key row => if payer key row = account then size' key row else 0)
        (table.erase key) =
      rowSum (fun key row => if payer key row = account then size key row else 0)
        (table.erase key) := by
    refine rowSum_congr _ fun other value stored => ?_
    have different : other ≠ key := by
      rintro rfl
      rw [AList.lookup_erase] at stored
      cases stored
    rw [AList.lookup_erase_ne different] at stored
    rw [agree other different value stored]
  rw [rowAt_of_lookup _ found] at erased
  simp only [paidBy, Pi.add_apply, Pi.sub_apply, Pi.single_apply, eq_comm (a := account)]
  split_ifs at inserted erased ⊢ <;> omega

theorem paidBy_insert_of_some (row : ρ key) :
    paidBy payer size (table.insert key row) =
      paidBy payer size table - Pi.single (payer key old) (size key old : Int) +
        Pi.single (payer key row) (size key row : Int) :=
  paidBy_insert_of_agree payer size found (fun _ _ _ _ => rfl) row

theorem paidBy_erase :
    paidBy payer size (table.erase key) =
      paidBy payer size table - Pi.single (payer key old) (size key old : Int) := by
  funext account
  have erased := rowSum_erase
    (fun key row => if payer key row = account then size key row else 0) table key
  rw [rowAt_of_lookup _ found] at erased
  simp only [paidBy, Pi.sub_apply, Pi.single_apply, eq_comm (a := account)]
  split_ifs at erased ⊢ <;> omega

end

theorem size_le_paidBy (found : table.lookup key = some old) :
    (size key old : Int) ≤ paidBy payer size table (payer key old) := by
  have contained := rowAt_le_rowSum
    (fun other row => if payer other row = payer key old then size other row else 0) table key
  rw [rowAt_of_lookup _ found] at contained
  simp only [if_true] at contained
  exact Int.ofNat_le.mpr contained

end Paid

end Sums

/-! ### Totals in a group -/

open AList

variable {κ α M : Type*} [DecidableEq κ] [AddCommGroup M] (measure : α → M)

def total (table : AList fun _ : κ => α) : M := (table.entries.map fun row => measure row.2).sum

/-- The measure of the row at a key; a missing row measures nothing. -/
def measureAt (table : AList fun _ : κ => α) (key : κ) : M := (table.lookup key).elim 0 measure

variable {measure} {table : AList fun _ : κ => α} {key : κ} {old : α}

theorem measureAt_of_some (found : table.lookup key = some old) :
    measureAt measure table key = measure old := by
  rw [measureAt, found, Option.elim_some]

theorem measureAt_of_none (missing : table.lookup key = none) :
    measureAt measure table key = 0 := by
  rw [measureAt, missing, Option.elim_none]

theorem total_erase (table : AList fun _ : κ => α) (key : κ) :
    total measure (table.erase key) = total measure table - measureAt measure table key :=
  eq_sub_of_add_eq (sum_kerase (fun _ => measure) key table.entries)

theorem total_insert (table : AList fun _ : κ => α) (key : κ) (row : α) :
    total measure (table.insert key row) =
      total measure table - measureAt measure table key + measure row := by
  have inserted : total measure (table.insert key row) =
      measure row + total measure (table.erase key) := by
    unfold total
    rw [entries_insert, map_cons, sum_cons]
    rfl
  rw [inserted, total_erase, add_comm]

theorem entries_perm (found : table.lookup key = some old) :
    table.entries.Perm (⟨key, old⟩ :: (table.erase key).entries) := by
  have listed : key ∈ table.entries.keys := mem_keys_of_mem (mem_lookup_iff.mp found)
  obtain ⟨value, before, after, absent, split, erased⟩ := exists_of_kerase listed
  have same : value = old := by
    have lookup : table.lookup key = some value := mem_lookup_iff.mpr (by rw [split]; simp)
    exact Option.some.inj (lookup.symm.trans found)
  subst same
  show table.entries.Perm (⟨key, value⟩ :: table.entries.kerase key)
  rw [erased, split]
  exact perm_middle

theorem entries_erase_of_none (missing : table.lookup key = none) :
    (table.erase key).entries = table.entries :=
  kerase_of_notMem_keys (lookup_eq_none.mp missing)

theorem lookup_insert_cases {other : κ} {row value : α}
    (found : (table.insert key row).lookup other = some value) :
    other = key ∧ value = row ∨ other ≠ key ∧ table.lookup other = some value := by
  by_cases same : other = key
  · subst same
    rw [lookup_insert] at found
    cases found
    exact .inl ⟨rfl, rfl⟩
  · rw [lookup_insert_ne same] at found
    exact .inr ⟨same, found⟩

theorem forall_lookup_insert {holds : κ → α → Prop} {row : α} (new : holds key row)
    (old : ∀ other value, other ≠ key → table.lookup other = some value → holds other value)
    (other : κ) (value : α) (found : (table.insert key row).lookup other = some value) :
    holds other value := by
  rcases lookup_insert_cases found with ⟨rfl, rfl⟩ | ⟨different, kept⟩
  · exact new
  · exact old other value different kept

theorem lookup_insert_ne_none {other : κ} {row : α} (present : table.lookup other ≠ none) :
    (table.insert key row).lookup other ≠ none := by
  by_cases same : other = key
  · subst same
    rw [lookup_insert]
    exact nofun
  · rwa [lookup_insert_ne same]

end CodexRelay.Library
