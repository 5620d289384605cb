import CodexRelay.Chain.Types

/-!
Contract: what contracts take from `eosiolib` and from the host.

Owns:
- assets, with operators that return the exact result or abort. `eosiolib` is not part of the
  repository, so the range that an operator accepts is a parameter;
- assertions and authorization checks.
-/

namespace CodexRelay.Contracts

open Chain

variable {message : String} {α : Type}

variable {test : Prop} {done : Unit} {actors : List AccountName} {account : AccountName} {β : Type}

abbrev Name := Nat

abbrev Checksum256 := Nat

/-- `symbol_type`: the precision is the lowest byte. -/
abbrev SymbolType := Nat

structure Asset where
  amount : Int
  symbol : SymbolType
deriving DecidableEq

/-- The functions of `eosiolib` that the contracts use. -/
structure Eosiolib where
  /-- `CORE_SYMBOL` -/
  coreSymbol : SymbolType
  /-- whether `operator+=` keeps the sum of two amounts -/
  addFits : Int → Int → Bool
  /-- whether `operator-=` keeps the difference of two amounts -/
  subFits : Int → Int → Bool
  /-- whether `operator*=` keeps the product of an amount and a factor -/
  mulFits : Int → Int → Bool
  /-- `string_to_name` -/
  stringToName : String → Name

def maxAmount : Int := 2 ^ 62 - 1

/-- Operators that keep amounts up to `max_amount`, and a single name. -/
def Eosiolib.bounded (coreSymbol : SymbolType) (name : Name) : Eosiolib where
  coreSymbol
  addFits left right := |left + right| ≤ maxAmount
  subFits left right := |left - right| ≤ maxAmount
  mulFits amount factor := |amount * factor| ≤ maxAmount
  stringToName _ := name

def eosioAssert (test : Prop) [Decidable test] (message : String) : Checked Unit :=
  eosAssert test .eosioAssertMessageException message

@[simp] theorem eosioAssert_eq_ok [Decidable test] :
    eosioAssert test message = .ok done ↔ test :=
  eosAssert_eq_ok

theorem eosioAssert_bind [Decidable test] {next : Unit → Checked α} {result : α} :
    (eosioAssert test message >>= next) = .ok result ↔ test ∧ next () = .ok result := by
  rw [sequence_eq_ok]
  simp only [eosioAssert_eq_ok]
  exact ⟨fun ⟨_, holds, rest⟩ => ⟨holds, rest⟩, fun ⟨holds, rest⟩ => ⟨(), holds, rest⟩⟩

theorem of_assert [Decidable test] {next : Unit → Checked α} {result : α}
    (ran : (eosioAssert test message >>= next) = .ok result) : test ∧ next () = .ok result :=
  eosioAssert_bind.mp ran

def requireAuth (actors : List AccountName) (account : AccountName) : Checked Unit :=
  eosAssert (account ∈ actors) .missingAuthException "missing authority of ${account}"

theorem of_auth {next : Unit → Checked α} {result : α}
    (ran : (requireAuth actors account >>= next) = .ok result) :
    account ∈ actors ∧ next () = .ok result := by
  obtain ⟨_, holds, rest⟩ := of_bind ran
  exact ⟨eosAssert_eq_ok.mp holds, rest⟩

/-- A row that `find` returned, where `end()` is refused. -/
def requireRow {α : Type} (row : Option α) (message : String) : Checked α :=
  row.elim (.error ⟨.eosioAssertMessageException, message⟩) .ok

@[simp] theorem requireRow_eq_ok {row : Option α} {value : α} :
    requireRow row message = .ok value ↔ row = some value := by
  cases row <;> simp [requireRow]

theorem requireRow_bind {row : Option α} {next : α → Checked β} {result : β} :
    (requireRow row message >>= next) = .ok result ↔
      ∃ value, row = some value ∧ next value = .ok result := by
  simp [sequence_eq_ok]

theorem of_row {row : Option α} {next : α → Checked β} {result : β}
    (ran : (requireRow row message >>= next) = .ok result) :
    ∃ value, row = some value ∧ next value = .ok result :=
  requireRow_bind.mp ran

namespace Eosiolib

variable (lib : Eosiolib)

/-- `asset{ amount }`. -/
def coreAsset (amount : Int) : Asset := ⟨amount, lib.coreSymbol⟩

def add (left right : Asset) : Checked Asset := do
  eosioAssert (right.symbol = left.symbol) "attempt to add asset with different symbol"
  eosioAssert (lib.addFits left.amount right.amount) "addition overflow"
  return ⟨left.amount + right.amount, left.symbol⟩

def sub (left right : Asset) : Checked Asset := do
  eosioAssert (right.symbol = left.symbol) "attempt to subtract asset with different symbol"
  eosioAssert (lib.subFits left.amount right.amount) "subtraction overflow"
  return ⟨left.amount - right.amount, left.symbol⟩

def mul (asset : Asset) (factor : Int) : Checked Asset := do
  eosioAssert (lib.mulFits asset.amount factor) "multiplication overflow or underflow"
  return ⟨asset.amount * factor, asset.symbol⟩

def le (left right : Asset) : Checked Bool := do
  eosioAssert (left.symbol = right.symbol)
    "comparison of assets with different symbols is not allowed"
  return left.amount ≤ right.amount

def lt (left right : Asset) : Checked Bool := do
  eosioAssert (left.symbol = right.symbol)
    "comparison of assets with different symbols is not allowed"
  return left.amount < right.amount

variable {lib} {left right result : Asset}

theorem eq_of_add (added : lib.add left right = .ok result) :
    result = ⟨left.amount + right.amount, left.symbol⟩ := by
  obtain ⟨-, added⟩ := of_assert added
  obtain ⟨-, added⟩ := of_assert added
  cases added
  rfl

theorem eq_of_sub (subtracted : lib.sub left right = .ok result) :
    result = ⟨left.amount - right.amount, left.symbol⟩ := by
  obtain ⟨-, subtracted⟩ := of_assert subtracted
  obtain ⟨-, subtracted⟩ := of_assert subtracted
  cases subtracted
  rfl

theorem amount_of_mul {factor : Int} (multiplied : lib.mul left factor = .ok result) :
    result.amount = left.amount * factor := by
  obtain ⟨-, multiplied⟩ := of_assert multiplied
  cases multiplied
  rfl

theorem amount_le_of_le (compared : le left right = .ok true) : left.amount ≤ right.amount := by
  obtain ⟨-, compared⟩ := of_assert compared
  simpa [pure, Except.pure] using compared

end Eosiolib

/-! ### Validity

An amount is an `int64_t`, so what an operator keeps has that width. -/

/-- The checks of `eosiolib` on symbols and amounts. -/
structure AssetLib extends Eosiolib where
  /-- `symbol_type::is_valid` -/
  symbolIsValid : SymbolType → Bool
  /-- `asset::is_amount_within_range` -/
  amountFits : Int → Bool
  amountFits_lt : ∀ amount, amountFits amount = true → -2 ^ 63 ≤ amount ∧ amount < 2 ^ 63
  addFits_lt : ∀ left right, addFits left right = true →
    -2 ^ 63 ≤ left + right ∧ left + right < 2 ^ 63
  subFits_lt : ∀ left right, subFits left right = true →
    -2 ^ 63 ≤ left - right ∧ left - right < 2 ^ 63

def symbolName (symbol : SymbolType) : Nat := symbol / 256

def symbolPrecision (symbol : SymbolType) : Nat := symbol % 256

namespace AssetLib

/-- Amounts up to `max_amount`, where every symbol is valid. -/
def bounded (coreSymbol : SymbolType) (name : Name) : AssetLib where
  toEosiolib := .bounded coreSymbol name
  symbolIsValid _ := true
  amountFits amount := |amount| ≤ maxAmount
  amountFits_lt amount fits := by
    have := abs_le.mp (of_decide_eq_true fits)
    unfold maxAmount at this
    omega
  addFits_lt left right fits := by
    have := abs_le.mp (of_decide_eq_true fits)
    unfold maxAmount at this
    omega
  subFits_lt left right fits := by
    have := abs_le.mp (of_decide_eq_true fits)
    unfold maxAmount at this
    omega

variable (lib : AssetLib)

def isValid (asset : Asset) : Bool := lib.amountFits asset.amount && lib.symbolIsValid asset.symbol

def asset (amount : Int) (symbol : SymbolType) : Checked Asset := do
  eosioAssert (lib.amountFits amount) "magnitude of asset amount must be less than 2^62"
  eosioAssert (lib.symbolIsValid symbol) "invalid symbol name"
  return ⟨amount, symbol⟩

variable {lib} {left right result : Asset}

theorem eq_of_asset {amount : Int} {symbol : SymbolType}
    (made : lib.asset amount symbol = .ok result) : result = ⟨amount, symbol⟩ := by
  obtain ⟨-, made⟩ := of_assert made
  obtain ⟨-, made⟩ := of_assert made
  cases made
  rfl

theorem eq_of_add (added : lib.add left right = .ok result) :
    result = ⟨left.amount + right.amount, left.symbol⟩ ∧ right.symbol = left.symbol ∧
      -2 ^ 63 ≤ result.amount ∧ result.amount < 2 ^ 63 := by
  obtain ⟨symbol, added⟩ := of_assert added
  obtain ⟨fits, added⟩ := of_assert added
  cases added
  exact ⟨rfl, symbol, lib.addFits_lt _ _ fits⟩

theorem eq_of_sub (subtracted : lib.sub left right = .ok result) :
    result = ⟨left.amount - right.amount, left.symbol⟩ ∧ right.symbol = left.symbol ∧
      -2 ^ 63 ≤ result.amount ∧ result.amount < 2 ^ 63 := by
  obtain ⟨symbol, subtracted⟩ := of_assert subtracted
  obtain ⟨fits, subtracted⟩ := of_assert subtracted
  cases subtracted
  exact ⟨rfl, symbol, lib.subFits_lt _ _ fits⟩

end AssetLib

end CodexRelay.Contracts
