import Mathlib.Data.List.Sort
import Mathlib.Order.RelClasses

/-!
# Sorting by a comparison

A sorting function that is given a comparison, as `std::sort` is.  Where the comparison is a
strict weak order the elements stay, and none stands before a smaller one; how equivalent
elements are ordered is left open.

## Main definitions

* `StdSort` — such a function.
* `StdSort.perm_and_le` — sorting by a comparison of keys.
* `StdSort.insertion` — insertion sort is one.
-/

namespace Imperative

variable {α : Type*}

/-- The comparison is a strict weak order. -/
def StrictWeak (less : α → α → Bool) : Prop := IsStrictWeakOrder α fun a b => less a b = true

/-- A sorting function. -/
structure StdSort (α : Type*) where
  sort : (α → α → Bool) → List α → List α
  perm : ∀ less l, StrictWeak less → (sort less l).Perm l
  sorted : ∀ less l, StrictWeak less → (sort less l).Pairwise fun a b => less b a = false

section Keys

variable {κ : Type*} [LinearOrder κ] {key : α → κ} {less : α → α → Bool}

/-- A comparison of keys is a strict weak order. -/
theorem strictWeak_of_key (h : ∀ a b, less a b = true ↔ key a < key b) : StrictWeak less := by
  have hkey : (fun a b => less a b = true) = fun a b => key a < key b := by
    funext a b
    exact propext (h a b)
  rw [StrictWeak, hkey]
  exact {
    irrefl a := lt_irrefl (key a)
    trans _ _ _ := lt_trans
    incomp_trans a b c hab hbc := by
      have hb : key a = key b := le_antisymm (not_lt.mp hab.2) (not_lt.mp hab.1)
      have hc : key b = key c := le_antisymm (not_lt.mp hbc.2) (not_lt.mp hbc.1)
      simp [hb, hc] }

variable (key) in
/-- Sorting by keys keeps the elements and puts the keys in order. -/
theorem StdSort.perm_and_le (s : StdSort α) (h : ∀ a b, less a b = true ↔ key a < key b)
    (l : List α) :
    (s.sort less l).Perm l ∧ (s.sort less l).Pairwise fun a b => key a ≤ key b := by
  refine ⟨s.perm less l (strictWeak_of_key h), (s.sorted less l (strictWeak_of_key h)).imp ?_⟩
  intro a b hab
  have hnot : ¬ key b < key a := fun hlt => by simp [(h b a).mpr hlt] at hab
  exact not_lt.mp hnot

end Keys

/-- What is not smaller than what is not smaller is not smaller. -/
theorem StrictWeak.trans_not {less : α → α → Bool} (h : StrictWeak less) {a b c : α}
    (hab : less b a = false) (hbc : less c b = false) : less c a = false := by
  have htrans := h.toIsStrictOrder.toIsTrans.trans
  by_contra hca
  rw [Bool.not_eq_false] at hca
  have hba : ¬ less a b = true := by
    intro hlt
    simp [htrans c a b hca hlt] at hbc
  have hcb : ¬ less b c = true := by
    intro hlt
    simp [htrans b c a hlt hca] at hab
  -- all three are equivalent
  have hall := h.incomp_trans a b c ⟨hba, by simp [hab]⟩ ⟨hcb, by simp [hbc]⟩
  exact hall.2 hca

/-- Insertion sort. -/
def StdSort.insertion : StdSort α where
  sort less l := l.insertionSort fun a b => less b a = false
  perm _ l _ := List.perm_insertionSort _ l
  sorted less l h := by
    have htotal : Std.Total fun a b => less b a = false := ⟨by
      intro a b
      by_contra hboth
      rw [not_or, Bool.not_eq_false, Bool.not_eq_false] at hboth
      have hself := h.toIsStrictOrder.toIsTrans.trans _ _ _ hboth.1 hboth.2
      exact h.toIsStrictOrder.toIrrefl.irrefl _ hself⟩
    have htrans : IsTrans α fun a b => less b a = false := ⟨fun _ _ _ => h.trans_not⟩
    exact List.pairwise_insertionSort _ l

end Imperative
