import Mathlib

/-!
Contract: integers of a fixed width as numbers.

Owns the conversions to integers of 32, 64 and 128 bits, which keep the low bits, and that they keep
a value that fits.
-/

namespace CodexRelay.Library

def toUInt32 (value : Int) : Nat := (value % 2 ^ 32).toNat

def toUInt64 (value : Int) : Nat := (value % 2 ^ 64).toNat

def toUInt128 (value : Int) : Nat := (value % 2 ^ 128).toNat

def toInt64 (value : Int) : Int := value.bmod (2 ^ 64)

def toInt128 (value : Int) : Int := value.bmod (2 ^ 128)

variable {value : Int}

theorem toUInt32_sub {earlier later : Nat} (past : earlier ≤ later) (width : later < 2 ^ 32) :
    (toUInt32 (later - earlier) : Int) = later - earlier := by
  unfold toUInt32
  omega

theorem toUInt64_of_lt (nonneg : 0 ≤ value) (fits : value < 2 ^ 64) :
    (toUInt64 value : Int) = value := by
  unfold toUInt64
  omega

theorem toUInt64_lt (value : Int) : toUInt64 value < 2 ^ 64 := by
  unfold toUInt64
  omega

theorem toUInt64_le (nonneg : 0 ≤ value) : (toUInt64 value : Int) ≤ value := by
  unfold toUInt64
  omega

/-- A quotient by a 64-bit number is that of the wrapped dividend only where nothing wraps. -/
theorem toUInt64_div_eq_iff {divisor : Nat} (nonneg : 0 ≤ value) (positive : 0 < divisor)
    (small : divisor ≤ 2 ^ 64) :
    (toUInt64 value : Int) / divisor = value / divisor ↔ value < 2 ^ 64 := by
  constructor
  · intro same
    by_contra wraps
    have wrapped : (toUInt64 value : Int) ≤ value - divisor := by
      unfold toUInt64
      omega
    have less := Int.ediv_le_ediv (Int.natCast_pos.mpr positive) wrapped
    rw [Int.sub_ediv_of_dvd _ (dvd_refl _), Int.ediv_self (Int.natCast_pos.mpr positive).ne'] at less
    omega
  · intro fits
    rw [toUInt64_of_lt nonneg fits]

theorem toInt64_of_lt (lower : -2 ^ 63 ≤ value) (upper : value < 2 ^ 63) : toInt64 value = value :=
  Int.bmod_eq_of_le (by omega) (by omega)

theorem toInt64_lt (value : Int) : toInt64 value < 2 ^ 63 := by
  have bound := Int.bmod_lt (x := value) (m := 2 ^ 64) (by decide)
  unfold toInt64
  omega

theorem toInt128_of_lt (lower : -2 ^ 127 ≤ value) (upper : value < 2 ^ 127) :
    toInt128 value = value :=
  Int.bmod_eq_of_le (by omega) (by omega)

end CodexRelay.Library
