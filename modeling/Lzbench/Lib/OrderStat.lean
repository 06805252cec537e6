import Mathlib.Data.List.GetD
import Mathlib.Data.List.Sort

/-!
# Order statistics of a list

The element of rank `r` of a list is described by counting, without sorting it: at
most `r` elements are smaller, and more than `r` are not larger.  Sorting finds it.

## Main definitions

* `IsRank l r x` — `x` is the element of rank `r`, counted from zero.
* `isRank_insertionSort` — it stands at index `r` of the sorted list.
-/

namespace Imperative

variable {α : Type*} [LinearOrder α]

/-- `x` is an element of `l`, at most `r` elements are smaller, and more than `r` are
not larger. -/
structure IsRank (l : List α) (r : ℕ) (x : α) : Prop where
  mem : x ∈ l
  below : l.countP (· < x) ≤ r
  above : r < l.countP (· ≤ x)

/-- The smallest element is the one of rank zero. -/
theorem isRank_zero {l : List α} {x : α} : IsRank l 0 x ↔ x ∈ l ∧ ∀ y ∈ l, x ≤ y := by
  constructor
  · intro h
    refine ⟨h.mem, fun y hy => ?_⟩
    have hnone := List.countP_eq_zero.mp (Nat.le_zero.mp h.below) y hy
    simpa using hnone
  · rintro ⟨hx, hle⟩
    refine ⟨hx, Nat.le_of_eq (List.countP_eq_zero.mpr fun y hy => ?_), ?_⟩
    · simpa using hle y hy
    · exact List.countP_pos_iff.mpr ⟨x, hx, by simp⟩

/-- The rank is a matter of the elements, not of their order. -/
theorem IsRank.perm {l l' : List α} {r : ℕ} {x : α} (h : IsRank l r x) (hp : l.Perm l') :
    IsRank l' r x :=
  ⟨hp.mem_iff.mp h.mem, hp.countP_eq _ ▸ h.below, hp.countP_eq _ ▸ h.above⟩

/-- In a sorted list the rank is the index. -/
theorem isRank_of_pairwise {l : List α} (h : l.Pairwise (· ≤ ·)) {r : ℕ} (hr : r < l.length) :
    IsRank l r l[r] := by
  have hsplit : l.take r ++ l[r] :: l.drop (r + 1) = l := by
    rw [← List.drop_eq_getElem_cons hr, List.take_append_drop]
  have hpair : (l.take r ++ l[r] :: l.drop (r + 1)).Pairwise (· ≤ ·) := hsplit.symm ▸ h
  obtain ⟨-, htail, hcross⟩ := List.pairwise_append.mp hpair
  have hlen : (l.take r).length = r := by
    rw [List.length_take, Nat.min_eq_left hr.le]
  refine ⟨List.getElem_mem hr, ?_, ?_⟩
  · -- only the elements before the index can be smaller
    have hzero : (l[r] :: l.drop (r + 1)).countP (· < l[r]) = 0 := by
      apply List.countP_eq_zero.mpr
      intro y hy
      rcases List.mem_cons.mp hy with rfl | hy
      · simp
      · simpa using (List.pairwise_cons.mp htail).1 y hy
    calc l.countP (· < l[r])
        = (l.take r).countP (· < l[r]) + (l[r] :: l.drop (r + 1)).countP (· < l[r]) := by
          rw [← List.countP_append, hsplit]
      _ ≤ r := by
          rw [hzero, Nat.add_zero]
          exact List.countP_le_length.trans_eq hlen
  · -- all of them, and the element itself, are not larger
    have hall : (l.take r).countP (· ≤ l[r]) = r := by
      rw [List.countP_eq_length.mpr, hlen]
      intro y hy
      simpa using hcross y hy l[r] List.mem_cons_self
    have hself : 0 < (l[r] :: l.drop (r + 1)).countP (· ≤ l[r]) :=
      List.countP_pos_iff.mpr ⟨l[r], List.mem_cons_self, by simp⟩
    have hcount := congrArg (List.countP (· ≤ l[r])) hsplit
    rw [List.countP_append, hall] at hcount
    omega

/-- Sorting finds the element of every rank. -/
theorem isRank_insertionSort {l : List α} {r : ℕ} (hr : r < l.length) (d : α) :
    IsRank l r ((l.insertionSort (· ≤ ·)).getD r d) := by
  have hlen : r < (l.insertionSort (· ≤ ·)).length := by
    rw [List.length_insertionSort]
    exact hr
  rw [List.getD_eq_getElem _ _ hlen]
  exact (isRank_of_pairwise (List.pairwise_insertionSort (· ≤ ·) l) hlen).perm
    (List.perm_insertionSort (· ≤ ·) l)

end Imperative
