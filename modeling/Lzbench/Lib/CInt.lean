import Mathlib.Algebra.Order.Ring.Int
import Mathlib.Tactic.NormNum

/-!
# Fixed-width integers of a C program on a 64-bit machine

Values are unbounded integers; the width shows only where the program converts or
lets unsigned arithmetic wrap.  Signed overflow is undefined in C, so a signed
counter that is only incremented needs no wrapping: every defined run stays in
range.

## Main definitions

* `toInt32`, `toInt64` — conversion to a signed type, modulo its width.
* `toUInt32`, `toSize` — conversion to an unsigned one.
* `addSize`, `subSize` — unsigned 64-bit addition and subtraction.
-/

namespace Imperative

/-- Conversion to a 64-bit unsigned integer. -/
def toSize (n : ℤ) : ℕ := (n % 2 ^ 64).toNat

/-- Conversion to a 32-bit unsigned integer. -/
def toUInt32 (n : ℤ) : ℕ := (n % 2 ^ 32).toNat

/-- Conversion to a 32-bit signed integer. -/
def toInt32 (n : ℤ) : ℤ :=
  if toUInt32 n < 2 ^ 31 then toUInt32 n else toUInt32 n - 2 ^ 32

/-- Conversion to a 64-bit signed integer. -/
def toInt64 (n : ℤ) : ℤ :=
  if toSize n < 2 ^ 63 then toSize n else toSize n - 2 ^ 64

/-- Unsigned 64-bit addition. -/
def addSize (a b : ℕ) : ℕ := (a + b) % 2 ^ 64

/-- Unsigned 64-bit subtraction. -/
def subSize (a b : ℕ) : ℕ := toSize ((a : ℤ) - b)

/-- `PTRDIFF_MAX`, the largest size of an object. -/
def ptrdiffMax : ℕ := 2 ^ 63 - 1

/-- The size of an object is a `size_t`. -/
theorem lt_of_le_ptrdiffMax {n : ℕ} (h : n ≤ ptrdiffMax) : n < 2 ^ 64 := by
  simp only [ptrdiffMax] at h
  omega

theorem toSize_lt (n : ℤ) : toSize n < 2 ^ 64 := by
  simp only [toSize]; omega

theorem toSize_ofNat {n : ℕ} (h : n < 2 ^ 64) : toSize n = n := by
  simp only [toSize]; omega

theorem toSize_of_nonneg {n : ℤ} (h0 : 0 ≤ n) (h : n < 2 ^ 64) : toSize n = n.toNat := by
  simp only [toSize]; omega

/-- A negative value is converted to more than the size of any object. -/
theorem lt_toSize_of_neg {n : ℤ} (hlow : -2 ^ 63 ≤ n) (hneg : n < 0) : ptrdiffMax < toSize n := by
  simp only [toSize, ptrdiffMax]
  omega

theorem toInt64_ofNat {n : ℕ} (h : n ≤ ptrdiffMax) : toInt64 n = n := by
  simp only [ptrdiffMax] at h
  rw [toInt64, toSize_ofNat (by omega), if_pos (by omega)]

theorem toInt64_ge (n : ℤ) : -2 ^ 63 ≤ toInt64 n := by
  simp only [toInt64]
  split <;> omega

theorem toInt64_lt (n : ℤ) : toInt64 n < 2 ^ 63 := by
  simp only [toInt64]
  split
  · omega
  · have hlt := toSize_lt n
    omega

theorem toNat_toInt64_le (n : ℕ) : (toInt64 n).toNat ≤ n := by
  have hmod : toSize n = n % 2 ^ 64 := by
    simp only [toSize]
    omega
  rw [toInt64, hmod]
  split <;> omega

/-- Unsigned arithmetic that wraps leaves the signed value alone. -/
theorem toInt64_mod (n : ℕ) : toInt64 (n % 2 ^ 64 : ℕ) = toInt64 n := by
  have hcast : toSize (n % 2 ^ 64 : ℕ) = toSize n := by
    simp only [toSize]
    omega
  rw [toInt64, toInt64, hcast]

/-- Comparing a signed value with an unsigned one converts it back. -/
theorem toSize_toInt64 {n : ℕ} (h : n < 2 ^ 64) : toSize (toInt64 n) = n := by
  rw [toInt64, toSize_ofNat h]
  simp only [toSize]
  split <;> omega

theorem toUInt32_natCast (n : ℕ) : toUInt32 n = n % 2 ^ 32 := by
  simp only [toUInt32]
  omega

theorem toInt32_ofNat {n : ℕ} (h : n < 2 ^ 31) : toInt32 n = n := by
  have hcast : toUInt32 n = n := (toUInt32_natCast n).trans (Nat.mod_eq_of_lt (by omega))
  rw [toInt32, hcast, if_pos h]

theorem toInt32_toInt32 (n : ℤ) : toInt32 (toInt32 n) = toInt32 n := by
  simp only [toInt32, toUInt32]
  omega

/-- Wrapping once is enough for a sum. -/
theorem toInt32_add (m n : ℤ) : toInt32 (toInt32 m + n) = toInt32 (m + n) := by
  simp only [toInt32, toUInt32]
  omega

theorem toInt32_add_toInt32 (m n : ℤ) : toInt32 (m + toInt32 n) = toInt32 (m + n) := by
  rw [add_comm, toInt32_add, add_comm]

/-- An `unsigned` sum is the same after its terms have wrapped. -/
theorem toUInt32_add_toInt32 (m n : ℤ) : toUInt32 (m + toInt32 n) = toUInt32 (m + n) := by
  simp only [toInt32, toUInt32]
  omega

theorem toUInt32_toUInt32_add (m n : ℤ) : toUInt32 (toUInt32 m + n) = toUInt32 (m + n) := by
  simp only [toUInt32]
  omega

theorem toUInt32_lt (n : ℤ) : toUInt32 n < 2 ^ 32 := by
  simp only [toUInt32]
  omega

/-- Truncation to 32 bits never raises a count, and keeps it in range. -/
theorem toInt32_ofNat_le (n : ℕ) : toInt32 n ≤ n ∧ toInt32 n < 2 ^ 31 := by
  rw [toInt32, toUInt32_natCast]
  split <;> omega

/-- An `int` takes no more than a multiple of `2 ^ 32` off a size it cannot hold. -/
theorem toNat_toInt32_add_le {n : ℕ} (h : 2 ^ 31 ≤ n) : (toInt32 n).toNat + 2 ^ 31 ≤ n := by
  rw [toInt32, toUInt32_natCast]
  split <;> omega

/-- The rest of a size, of which no more is taken than the `int` says. -/
theorem toInt32_sub {n k : ℕ} (hle : k ≤ n) (hk : (k : ℤ) ≤ max 0 (toInt32 n)) :
    toInt32 (n - k : ℕ) = toInt32 n - k := by
  rw [toInt32, toUInt32_natCast] at hk
  rw [toInt32, toInt32, toUInt32_natCast, toUInt32_natCast]
  by_cases hhalf : n % 2 ^ 32 < 2 ^ 31
  · rw [if_pos hhalf] at hk ⊢
    rw [if_pos (by omega)]
    omega
  · rw [if_neg hhalf] at hk ⊢
    obtain rfl : k = 0 := by omega
    rw [Nat.sub_zero, if_neg hhalf, Nat.cast_zero, Int.sub_zero]

theorem addSize_of_lt {a b : ℕ} (h : a + b < 2 ^ 64) : addSize a b = a + b :=
  Nat.mod_eq_of_lt h

theorem toSize_neg_one : toSize (-1) = 2 ^ 64 - 1 := by decide

/-- Adding the largest value takes one away. -/
theorem addSize_neg_one {a : ℕ} (h0 : 0 < a) (h : a < 2 ^ 64) :
    addSize a (toSize (-1)) = a - 1 := by
  have hsum : a + (2 ^ 64 - 1) = a - 1 + 2 ^ 64 := by omega
  rw [addSize, toSize_neg_one, hsum, Nat.add_mod_right, Nat.mod_eq_of_lt (by omega)]

theorem subSize_of_le {a b : ℕ} (hb : b ≤ a) (ha : a < 2 ^ 64) : subSize a b = a - b := by
  simp only [subSize, toSize]; omega

end Imperative
