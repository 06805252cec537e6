import Mathlib.Data.Int.Log
import Mathlib.Data.Rat.Floor
import Mathlib.Tactic.Positivity
import Mathlib.Tactic.Linarith

/-!
# Binary floating point of unbounded exponent

Rounding of a rational to the nearest number with `p` significant bits, ties to the
even one.  The exponent is not bounded, so this is the arithmetic of a binary format
for as long as no value leaves its range.  A quotient is a number, or one of the two
special values that a division by zero gives.

## Main definitions

* `roundHalfEven`, `roundBits` — rounding to an integer, and to `p` bits.
* `FloatVal`, `FloatVal.div` — the values of a format, and rounded division.
-/

namespace Imperative

/-- The nearest integer, ties to the even one. -/
def roundHalfEven (q : ℚ) : ℤ :=
  if q - ⌊q⌋ < 1 / 2 then ⌊q⌋
  else if 1 / 2 < q - ⌊q⌋ then ⌊q⌋ + 1
  else if ⌊q⌋ % 2 = 0 then ⌊q⌋
  else ⌊q⌋ + 1

theorem floor_le_roundHalfEven (q : ℚ) : ⌊q⌋ ≤ roundHalfEven q := by
  simp only [roundHalfEven]
  split_ifs <;> omega

/-- The unit in the last of `p` places of `q`. -/
def unitBits (p : ℕ) (q : ℚ) : ℚ := 2 ^ (Int.log 2 q - ((p : ℤ) - 1))

/-- The nearest non-negative number with `p` significant bits. -/
def roundBits (p : ℕ) (q : ℚ) : ℚ :=
  if q ≤ 0 then 0 else roundHalfEven (q / unitBits p q) * unitBits p q

theorem unitBits_pos (p : ℕ) (q : ℚ) : 0 < unitBits p q := by
  simp only [unitBits]
  exact zpow_pos (by norm_num) _

@[simp] theorem roundBits_zero (p : ℕ) : roundBits p 0 = 0 := by
  simp [roundBits]

/-- A significand has its leading bit set, so rounding never reaches zero. -/
theorem roundBits_pos {p : ℕ} (hp : 0 < p) {q : ℚ} (hq : 0 < q) : 0 < roundBits p q := by
  have hunit := unitBits_pos p q
  have hlead : 1 ≤ q / unitBits p q := by
    rw [le_div_iff₀ hunit, one_mul]
    have hexp : unitBits p q ≤ 2 ^ Int.log 2 q := by
      simp only [unitBits]
      exact zpow_le_zpow_right₀ (by norm_num) (by omega)
    exact hexp.trans (by exact_mod_cast Int.zpow_log_le_self (by norm_num) hq)
  have hfloor : 1 ≤ ⌊q / unitBits p q⌋ := Int.le_floor.mpr (by exact_mod_cast hlead)
  have hround : 1 ≤ roundHalfEven (q / unitBits p q) :=
    hfloor.trans (floor_le_roundHalfEven _)
  rw [roundBits, if_neg (not_le.mpr hq)]
  have hcast : (1 : ℚ) ≤ roundHalfEven (q / unitBits p q) := by exact_mod_cast hround
  positivity

theorem roundBits_nonneg (p : ℕ) (q : ℚ) : 0 ≤ roundBits p q := by
  cases le_or_gt q 0 with
  | inl hq =>
    rw [roundBits, if_pos hq]
  | inr hq =>
    have hunit := unitBits_pos p q
    have hfloor : 0 ≤ ⌊q / unitBits p q⌋ := Int.floor_nonneg.mpr (by positivity)
    have hround : (0 : ℚ) ≤ roundHalfEven (q / unitBits p q) := by
      exact_mod_cast hfloor.trans (floor_le_roundHalfEven _)
    rw [roundBits, if_neg (not_le.mpr hq)]
    positivity

theorem roundBits_eq_zero {p : ℕ} (hp : 0 < p) {q : ℚ} (hq : 0 ≤ q) :
    roundBits p q = 0 ↔ q = 0 := by
  constructor
  · intro h
    by_contra hne
    have hpos := roundBits_pos hp (lt_of_le_of_ne hq (Ne.symm hne))
    exact hpos.ne' h
  · rintro rfl
    exact roundBits_zero p

/-- A floating-point value that is not negative. -/
inductive FloatVal
  | finite (q : ℚ)
  | inf
  | nan
  deriving DecidableEq

namespace FloatVal

/-- Division in a format of `p` bits; `0 / 0` is not a number. -/
def div (p : ℕ) (a b : ℚ) : FloatVal :=
  if b = 0 then (if a = 0 then nan else inf) else finite (roundBits p (a / b))

/-- Conversion to a format of `p` bits. -/
def round (p : ℕ) : FloatVal → FloatVal
  | finite q => finite (roundBits p q)
  | inf => inf
  | nan => nan

/-- `x < n`, false of what is not a number. -/
def lt (x : FloatVal) (n : ℕ) : Bool :=
  match x with
  | finite q => q < n
  | inf => false
  | nan => false

/-- `!x`: the value is zero. -/
def isZero (x : FloatVal) : Bool := x == finite 0

/-- Conversion to an unsigned integer below `bound`; `none` for a value that the
target type does not hold. -/
def toNat? (bound : ℕ) (x : FloatVal) : Option ℕ :=
  match x with
  | finite q => if ⌊q⌋₊ < bound then some ⌊q⌋₊ else none
  | inf => none
  | nan => none

/-- A quotient of numbers is zero exactly when its numerator is. -/
theorem isZero_div {p p' : ℕ} (hp : 0 < p) (hp' : 0 < p') {a b : ℚ} (ha : 0 ≤ a)
    (hb : 0 < b) : ((div p a b).round p').isZero = true ↔ a = 0 := by
  rw [div, if_neg hb.ne', round, isZero, beq_iff_eq, FloatVal.finite.injEq,
    roundBits_eq_zero hp' (roundBits_nonneg p _), roundBits_eq_zero hp (by positivity),
    div_eq_zero_iff, or_iff_left hb.ne']

end FloatVal

end Imperative
