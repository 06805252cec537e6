import Mathlib.Data.List.TakeWhile
import Lzbench.Lib.CInt

/-!
# Numbers in C strings

A C string is the list of its characters, without the terminator.  `atoi` reads a
decimal number as the standard library does: leading white space and one sign are
taken, the digits end at the first character that is none, and a value beyond `long`
is clamped to it before it is converted to `int`.

## Main definitions

* `strtol`, `atoi` — reading a decimal number.
* `decimal` — printing one, as `%d` does.
* `atoi_decimal` — an `int` that was printed is read back.
-/

namespace Imperative

/-- `isspace`, in the C locale. -/
def isSpace (c : Char) : Bool := c = ' ' ∨ (9 ≤ c.toNat ∧ c.toNat ≤ 13)

/-- The value of the digits at the start of a string. -/
def leadingNat (s : List Char) : ℕ := Nat.ofDigitChars 10 (s.takeWhile Char.isDigit) 0

/-- `strtol` in base 10. -/
def strtol (s : List Char) : ℤ :=
  match s.dropWhile isSpace with
  | '-' :: rest => max (-2 ^ 63) (-leadingNat rest)
  | '+' :: rest => min (leadingNat rest) (2 ^ 63 - 1)
  | rest => min (leadingNat rest) (2 ^ 63 - 1)

/-- `atoi`. -/
def atoi (s : List Char) : ℤ := toInt32 (strtol s)

/-- `%d`. -/
def decimal : ℤ → List Char
  | .ofNat n => Nat.toDigits 10 n
  | .negSucc n => '-' :: Nat.toDigits 10 (n + 1)

/-- The value is of type `int`. -/
def IsInt (n : ℤ) : Prop := -2 ^ 31 ≤ n ∧ n < 2 ^ 31

theorem toInt32_of_isInt {n : ℤ} (h : IsInt n) : toInt32 n = n := by
  obtain ⟨hlow, hhigh⟩ := h
  rw [toInt32]
  by_cases hneg : n < 0
  · have hcast : (toUInt32 n : ℤ) = n + 2 ^ 32 := by
      simp only [toUInt32]
      omega
    rw [if_neg (by omega), hcast]
    omega
  · have hcast : (toUInt32 n : ℤ) = n := by
      simp only [toUInt32]
      omega
    rw [if_pos (by omega), hcast]

theorem isInt_toInt32 (n : ℤ) : IsInt (toInt32 n) := by
  have hlt : toUInt32 n < 2 ^ 32 := by
    simp only [toUInt32]
    omega
  rw [IsInt, toInt32]
  by_cases hsmall : toUInt32 n < 2 ^ 31
  · rw [if_pos hsmall]
    omega
  · rw [if_neg hsmall]
    omega

theorem isInt_atoi (s : List Char) : IsInt (atoi s) := isInt_toInt32 _

theorem leadingNat_toDigits (n : ℕ) : leadingNat (Nat.toDigits 10 n) = n := by
  have hdigits : (Nat.toDigits 10 n).takeWhile Char.isDigit = Nat.toDigits 10 n :=
    List.takeWhile_eq_self_iff.mpr fun c hc =>
      Nat.isDigit_of_mem_toDigits (by decide) (by decide) hc
  rw [leadingNat, hdigits, Nat.ofDigitChars_ten_toDigits]

/-- A digit is neither white space nor a sign. -/
theorem strtol_toDigits (n : ℕ) : strtol (Nat.toDigits 10 n) = min (n : ℤ) (2 ^ 63 - 1) := by
  cases hs : Nat.toDigits 10 n with
  | nil => exact absurd hs Nat.toDigits_ne_nil
  | cons c rest =>
    have hdigit : c.isDigit = true :=
      Nat.isDigit_of_mem_toDigits (by decide) (by decide) (hs ▸ List.mem_cons_self)
    have hcode : 48 ≤ c.toNat := by
      have hrange : '0'.val ≤ c.val ∧ c.val ≤ '9'.val := by simpa [Char.isDigit] using hdigit
      exact UInt32.le_iff_toNat_le.mp hrange.1
    have hspace : isSpace c = false := by
      have hblank : c ≠ ' ' := by
        rintro rfl
        simp at hcode
      simp only [isSpace, hblank, false_or, decide_eq_false_iff_not]
      omega
    have hminus : c ≠ '-' := by
      rintro rfl
      simp at hdigit
    have hplus : c ≠ '+' := by
      rintro rfl
      simp at hdigit
    rw [strtol, List.dropWhile_cons_of_neg (by simp [hspace])]
    split
    · rename_i heq
      exact absurd (List.cons.inj heq).1 hminus
    · rename_i heq
      exact absurd (List.cons.inj heq).1 hplus
    · rw [← hs, leadingNat_toDigits]

theorem strtol_decimal {n : ℤ} (h : IsInt n) : strtol (decimal n) = n := by
  obtain ⟨hlow, hhigh⟩ := h
  cases n with
  | ofNat n =>
    rw [decimal, strtol_toDigits, Int.ofNat_eq_natCast]
    rw [Int.ofNat_eq_natCast] at hhigh
    omega
  | negSucc n =>
    have hstart : strtol (decimal (.negSucc n)) =
        max (-2 ^ 63) (-(leadingNat (Nat.toDigits 10 (n + 1)) : ℤ)) := rfl
    rw [hstart, leadingNat_toDigits]
    omega

/-- An `int` is read back from what `%d` prints. -/
theorem atoi_decimal {n : ℤ} (h : IsInt n) : atoi (decimal n) = n := by
  rw [atoi, strtol_decimal h, toInt32_of_isInt h]

end Imperative
