import Mathlib.Algebra.BigOperators.Group.Finset.Basic
import Mathlib.Algebra.BigOperators.Ring.Finset
import Mathlib.Algebra.Order.BigOperators.Group.Finset
import Mathlib.Data.Nat.Bitwise

/-!
# Canonical codes

Codes of given lengths, in the order of their lengths, and of their symbols where these are
equal.  A code of length `c` stands for all words of `L` bits that begin with it; so the words
of the codes follow one another, and there is room for them by the inequality of Kraft.

A symbol of length `0` has no code.

## Main definitions

* `codeStart` — the first word that is left for a code.
* `canonicalCode` — the code of a symbol.
* `canonicalCode_lt` — it has no more bits than its length.
* `canonicalCode_unique` — what is read as a code is read as no other.
-/

namespace Imperative

open Finset

/-- A symbol whose code comes before those of length `c` of the symbols from `i` on. -/
def CodeBefore (len : ℕ → ℕ) (c i j : ℕ) : Prop := 0 < len j ∧ (len j < c ∨ len j = c ∧ j < i)

instance (len : ℕ → ℕ) (c i j : ℕ) : Decidable (CodeBefore len c i j) :=
  inferInstanceAs (Decidable (_ ∧ _))

/-- How many words the codes of `n` symbols take. -/
def kraftSum (len : ℕ → ℕ) (n L : ℕ) : ℕ := ∑ j ∈ range n with 0 < len j, 2 ^ (L - len j)

/-- The first word for the codes of length `c` of the symbols from `i` on. -/
def codeStart (len : ℕ → ℕ) (n L c i : ℕ) : ℕ :=
  ∑ j ∈ range n with CodeBefore len c i j, 2 ^ (L - len j)

/-- The code of a symbol. -/
def canonicalCode (len : ℕ → ℕ) (n L j : ℕ) : ℕ :=
  codeStart len n L (len j) j / 2 ^ (L - len j)

section

variable {len : ℕ → ℕ} {n L : ℕ}

theorem codeStart_one : codeStart len n L 1 0 = 0 := by
  refine sum_eq_zero fun j hj => ?_
  obtain ⟨-, hpos, hlt | ⟨-, hlt⟩⟩ := mem_filter.mp hj <;> omega

/-- Of the next length there are none before the first symbol. -/
theorem codeStart_next (c : ℕ) : codeStart len n L (c + 1) 0 = codeStart len n L c n := by
  refine sum_congr (filter_congr fun j hj => ?_) fun _ _ => rfl
  have hjn := mem_range.mp hj
  simp only [CodeBefore]
  omega

/-- A symbol of the length takes its words. -/
theorem codeStart_succ (len : ℕ → ℕ) (L : ℕ) {c i : ℕ} (hi : i < n) (hc : 0 < c) :
    codeStart len n L c (i + 1) = codeStart len n L c i +
      if len i = c then 2 ^ (L - c) else 0 := by
  by_cases heq : len i = c
  · have hset : (range n).filter (CodeBefore len c (i + 1)) =
        insert i ((range n).filter (CodeBefore len c i)) := by
      ext j
      simp only [mem_filter, mem_insert, mem_range, CodeBefore]
      by_cases hj : j = i
      · subst hj
        omega
      · omega
    rw [codeStart, hset, sum_insert (by simp [CodeBefore, heq]), if_pos heq, heq, Nat.add_comm]
    · rfl
  · rw [if_neg heq, Nat.add_zero]
    refine sum_congr (filter_congr fun j _ => ?_) fun _ _ => rfl
    simp only [CodeBefore]
    by_cases hj : j = i
    · subst hj
      omega
    · omega

theorem codeStart_mono {c i c' i' : ℕ} (h : c < c' ∨ c = c' ∧ i ≤ i') :
    codeStart len n L c i ≤ codeStart len n L c' i' := by
  unfold codeStart
  refine sum_le_sum_of_subset ?_
  intro j hj
  rw [mem_filter] at hj ⊢
  obtain ⟨hjn, hpos, hbefore⟩ := hj
  exact ⟨hjn, hpos, by omega⟩

theorem codeStart_le_kraftSum (c i : ℕ) : codeStart len n L c i ≤ kraftSum len n L := by
  unfold codeStart kraftSum
  refine sum_le_sum_of_subset ?_
  intro j hj
  rw [mem_filter] at hj ⊢
  exact ⟨hj.1, hj.2.1⟩

theorem dvd_codeStart (c i : ℕ) : 2 ^ (L - c) ∣ codeStart len n L c i := by
  unfold codeStart
  refine dvd_sum ?_
  intro j hj
  refine pow_dvd_pow 2 ?_
  rw [mem_filter] at hj
  simp only [CodeBefore] at hj
  omega

theorem canonicalCode_mul (j : ℕ) :
    canonicalCode len n L j * 2 ^ (L - len j) = codeStart len n L (len j) j :=
  Nat.div_mul_cancel (dvd_codeStart _ _)

/-- The words of a code end before the others of the same order begin. -/
theorem codeStart_add_le {j c i : ℕ} (hj : j < n) (hpos : 0 < len j)
    (h : CodeBefore len c i j) :
    codeStart len n L (len j) j + 2 ^ (L - len j) ≤ codeStart len n L c i := by
  have hnext := codeStart_succ len L hj hpos
  rw [if_pos rfl] at hnext
  rw [← hnext]
  refine codeStart_mono ?_
  simp only [CodeBefore] at h
  omega

/-- No code begins another one. -/
theorem canonicalCode_ne {i j : ℕ} (hi : i < n) (hj : j < n) (hne : i ≠ j) (hpos : 0 < len i)
    (hle : len i ≤ len j) (hL : len j ≤ L) :
    canonicalCode len n L i ≠ canonicalCode len n L j / 2 ^ (len j - len i) := by
  intro heq
  have hshare : 2 ^ (L - len i) = 2 ^ (L - len j) * 2 ^ (len j - len i) := by
    rw [← Nat.pow_add]
    congr 1
    omega
  have hsharei : 0 < 2 ^ (L - len i) := Nat.two_pow_pos _
  have hsharej : 0 < 2 ^ (L - len j) := Nat.two_pow_pos _
  have hdiv : codeStart len n L (len j) j / 2 ^ (L - len i) * 2 ^ (L - len i) =
      codeStart len n L (len i) i := by
    rw [← canonicalCode_mul i, heq, hshare, ← Nat.div_div_eq_div_mul]
    rfl
  -- the first word of `j` would be one of those of `i`
  have hlow := Nat.div_mul_le_self (codeStart len n L (len j) j) (2 ^ (L - len i))
  have hhigh := Nat.lt_div_mul_add (a := codeStart len n L (len j) j) hsharei
  rw [hdiv] at hlow hhigh
  by_cases hbefore : CodeBefore len (len j) j i
  · have hend := codeStart_add_le (L := L) hi hpos hbefore
    omega
  · have hafter : CodeBefore len (len i) i j := by
      simp only [CodeBefore] at hbefore ⊢
      omega
    have hend := codeStart_add_le (L := L) hj (by omega) hafter
    omega

variable (hkraft : kraftSum len n L ≤ 2 ^ L)

include hkraft

/-- The words of a code are words. -/
theorem codeStart_add_le_two_pow {j : ℕ} (hj : j < n) (hpos : 0 < len j) :
    codeStart len n L (len j) j + 2 ^ (L - len j) ≤ 2 ^ L :=
  ((codeStart_add_le hj hpos ⟨hpos, Or.inl (Nat.lt_succ_self _)⟩).trans
    (codeStart_le_kraftSum (len j + 1) 0)).trans hkraft

theorem canonicalCode_lt {j : ℕ} (hj : j < n) (hpos : 0 < len j) (hle : len j ≤ L) :
    canonicalCode len n L j < 2 ^ len j := by
  have hwords := codeStart_add_le_two_pow hkraft hj hpos
  rw [← canonicalCode_mul] at hwords
  have hshare : 0 < 2 ^ (L - len j) := Nat.two_pow_pos _
  have hsplit : 2 ^ L = 2 ^ len j * 2 ^ (L - len j) := by
    rw [← Nat.pow_add, Nat.add_sub_cancel' hle]
  rw [hsplit] at hwords
  exact Nat.lt_of_mul_lt_mul_right (Nat.lt_of_lt_of_le (Nat.lt_add_of_pos_right hshare) hwords)

/-- The bits at which a code is read, the highest one first, are those of no longer code. -/
theorem canonicalCode_not_both {f : ℕ → Bool} {i j : ℕ} (hi : i < n) (hj : j < n) (hne : i ≠ j)
    (hpos : 0 < len i) (hle : len i ≤ len j) (hL : len j ≤ L)
    (hfi : ∀ k < len i, f k = (canonicalCode len n L i).testBit (len i - 1 - k)) :
    ¬ ∀ k < len j, f k = (canonicalCode len n L j).testBit (len j - 1 - k) := by
  intro hfj
  refine canonicalCode_ne hi hj hne hpos hle hL (Nat.eq_of_testBit_eq fun k => ?_)
  rw [Nat.testBit_div_two_pow]
  by_cases hk : k < len i
  · have hbiti := hfi (len i - 1 - k) (by omega)
    have hbitj := hfj (len i - 1 - k) (by omega)
    rw [show len i - 1 - (len i - 1 - k) = k by omega] at hbiti
    rw [show len j - 1 - (len i - 1 - k) = k + (len j - len i) by omega] at hbitj
    rw [← hbiti, hbitj]
  · have hlti := canonicalCode_lt hkraft hi hpos (hle.trans hL)
    have hltj := canonicalCode_lt hkraft hj (by omega) hL
    rw [Nat.testBit_lt_two_pow (hlti.trans_le (Nat.pow_le_pow_right Nat.two_pos (by omega))),
      Nat.testBit_lt_two_pow (hltj.trans_le (Nat.pow_le_pow_right Nat.two_pos (by omega)))]

/-- What is read as a code is read as no other. -/
theorem canonicalCode_unique {f : ℕ → Bool} {i j : ℕ} (hi : i < n) (hj : j < n)
    (hposi : 0 < len i) (hposj : 0 < len j) (hLi : len i ≤ L) (hLj : len j ≤ L)
    (hfi : ∀ k < len i, f k = (canonicalCode len n L i).testBit (len i - 1 - k))
    (hfj : ∀ k < len j, f k = (canonicalCode len n L j).testBit (len j - 1 - k)) : i = j := by
  by_contra hne
  cases le_total (len i) (len j) with
  | inl hle => exact canonicalCode_not_both hkraft hi hj hne hposi hle hLj hfi hfj
  | inr hle => exact canonicalCode_not_both hkraft hj hi (Ne.symm hne) hposj hle hLi hfj hfi

end

end Imperative
