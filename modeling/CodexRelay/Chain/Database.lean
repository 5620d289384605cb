import CodexRelay.Chain.Types

/-!
Contract: the tables of `chainbase`, which is a submodule and not part of the repository.

A table has a unique key. What is relied on is what `chainbase` documents: `create` numbers the
objects one after the other and throws where a unique index refuses the object, `find` returns the
object of a key or nothing, `get` throws where there is none, and `modify` and `remove` concern one
object. A call that throws is undone with the session it runs in, so that it returns no table.

The rows of an `IdTable` are found by the numbers that they got when they were created, and by
one more unique key.
-/

namespace CodexRelay.Chain

open AList

namespace Database

variable {κ : Type} [DecidableEq κ] {ρ : κ → Type} {table created : AList ρ} {key : κ} {row : ρ key}

def create (table : AList ρ) (key : κ) (row : ρ key) : Checked (AList ρ) :=
  match table.lookup key with
  | some _ => .error ⟨.logicError,
      "could not insert object, most likely a uniqueness constraint was violated"⟩
  | none => .ok (table.insert key row)

def get (table : AList ρ) (key : κ) : Checked (ρ key) :=
  match table.lookup key with
  | some row => .ok row
  | none => .error ⟨.outOfRange, "unknown key"⟩

theorem create_eq_ok :
    create table key row = .ok created ↔ table.lookup key = none ∧ table.insert key row = created := by
  unfold create
  cases table.lookup key <;> simp

theorem get_eq_ok : get table key = .ok row ↔ table.lookup key = some row := by
  unfold get
  cases table.lookup key <;> simp

end Database

structure IdTable (ρ : Type) where
  rows : AList fun _ : Nat => ρ
  nextId : Nat
  below : ∀ id ∈ rows, id < nextId

namespace IdTable

variable {ρ κ : Type} [DecidableEq κ] {key : ρ → κ} {table created : IdTable ρ} {id : Nat} {row : ρ}

def empty : IdTable ρ := ⟨∅, 0, fun _ member => absurd member (notMem_empty _)⟩

/-- `db.find` by the number. -/
def find (table : IdTable ρ) (id : Nat) : Option ρ := table.rows.lookup id

/-- `db.find` by the other key. -/
def findBy (key : ρ → κ) (table : IdTable ρ) (value : κ) : Option (Nat × ρ) :=
  (table.rows.entries.find? fun row => key row.2 = value).map fun row => (row.1, row.2)

def create (key : ρ → κ) (table : IdTable ρ) (row : ρ) : Checked (Nat × IdTable ρ) :=
  match table.findBy key (key row) with
  | some _ => .error ⟨.logicError,
      "could not insert object, most likely a uniqueness constraint was violated"⟩
  | none => .ok (table.nextId,
      { rows := table.rows.insert table.nextId row
        nextId := table.nextId + 1
        below := by
          intro id member
          rcases (mem_insert _).mp member with rfl | member
          · exact Nat.lt_succ_self _
          · exact Nat.lt_succ_of_lt (table.below id member) })

/-- `db.modify`, of the row with this number. -/
def modify (table : IdTable ρ) (id : Nat) (row : ρ) : IdTable ρ :=
  if present : id ∈ table.rows then
    { table with
      rows := table.rows.insert id row
      below := by
        intro other member
        rcases (mem_insert _).mp member with rfl | member
        · exact table.below _ present
        · exact table.below other member }
  else table

def remove (table : IdTable ρ) (id : Nat) : IdTable ρ where
  rows := table.rows.erase id
  nextId := table.nextId
  below := fun other member => table.below other (mem_erase.mp member).2

theorem create_eq_ok : create key table row = .ok (id, created) ↔
    table.findBy key (key row) = none ∧ id = table.nextId ∧
      created.rows = table.rows.insert table.nextId row ∧ created.nextId = table.nextId + 1 := by
  unfold create
  obtain ⟨rows, nextId, below⟩ := created
  cases table.findBy key (key row) with
  | some => simp
  | none =>
    simp only [Except.ok.injEq, Prod.mk.injEq, mk.injEq, true_and]
    exact ⟨fun ⟨same, rowsSame, nextSame⟩ => ⟨same.symm, rowsSame.symm, nextSame.symm⟩,
      fun ⟨same, rowsSame, nextSame⟩ => ⟨same.symm, rowsSame.symm, nextSame.symm⟩⟩

theorem findBy_eq_some {value : κ} (found : table.findBy key value = some (id, row)) :
    table.find id = some row ∧ key row = value := by
  obtain ⟨⟨id', row'⟩, first, same⟩ := Option.map_eq_some_iff.mp found
  obtain ⟨rfl, rfl⟩ := Prod.mk.inj same
  have chosen := List.find?_some first
  exact ⟨mem_lookup_iff.mpr (List.mem_of_find?_eq_some first), of_decide_eq_true chosen⟩

theorem findBy_ne_none {value : κ} (found : table.find id = some row) (same : key row = value) :
    table.findBy key value ≠ none := by
  have member : ⟨id, row⟩ ∈ table.rows.entries := mem_lookup_iff.mp found
  intro missing
  have absent := List.find?_eq_none.mp (Option.map_eq_none_iff.mp missing) _ member
  exact absent (decide_eq_true same)

theorem find_nextId (table : IdTable ρ) : table.find table.nextId = none :=
  lookup_eq_none.mpr fun member => lt_irrefl _ (table.below _ member)

theorem find_lt_nextId (found : table.find id = some row) : id < table.nextId :=
  table.below id (lookup_isSome.mp (by rw [← find, found]; rfl))

theorem modify_rows (found : table.find id = some row) (row' : ρ) :
    (table.modify id row').rows = table.rows.insert id row' := by
  unfold modify
  rw [dif_pos (lookup_isSome.mp (by rw [← find, found]; rfl))]

end IdTable

end CodexRelay.Chain
