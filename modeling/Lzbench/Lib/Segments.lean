import Mathlib.Algebra.BigOperators.Group.List.Basic
import Mathlib.Algebra.GroupWithZero.Nat
import Mathlib.Data.List.Forall2

/-!
# Segments of given lengths

Lengths that are laid out one behind the other cut the positions below their sum into
segments.  Where every segment is itself cut into smaller ones, the small segment with a position
is found inside the large one.

## Main definitions

* `segmentAt lens p` — the segment that contains the position `p`.
* `segmentAt_eq_some_iff` — it is the one, and there is one below the sum.
* `segmentAt_flatten` — segments inside segments.
-/

namespace Imperative

/-- A range of positions, by its start and its length. -/
structure Segment where
  start : ℕ
  length : ℕ
  deriving DecidableEq, Repr

/-- The range behind `n` positions more. -/
def Segment.shift (n : ℕ) (s : Segment) : Segment := { s with start := n + s.start }

@[simp] theorem Segment.start_shift (n : ℕ) (s : Segment) : (s.shift n).start = n + s.start := rfl

@[simp] theorem Segment.length_shift (n : ℕ) (s : Segment) : (s.shift n).length = s.length := rfl

theorem Segment.shift_zero : Segment.shift 0 = id := by
  funext s
  simp [shift]

theorem Segment.shift_comp (m n : ℕ) : shift m ∘ shift n = shift (m + n) := by
  funext s
  simp only [Function.comp_apply, shift, Nat.add_assoc]

/-- The segment that contains a position. -/
def segmentAt : List ℕ → ℕ → Option Segment
  | [], _ => none
  | n :: lens, p => if p < n then some ⟨0, n⟩ else (segmentAt lens (p - n)).map (Segment.shift n)

variable {lens : List ℕ} {n p : ℕ} {s : Segment}

theorem segmentAt_of_lt (h : p < n) : segmentAt (n :: lens) p = some ⟨0, n⟩ := if_pos h

theorem segmentAt_of_le (h : n ≤ p) :
    segmentAt (n :: lens) p = (segmentAt lens (p - n)).map (Segment.shift n) :=
  if_neg (Nat.not_lt_of_le h)

/-- The segment of a length starts where those before it end. -/
theorem segmentAt_append_cons (before after : List ℕ) {off : ℕ} (hoff : off < n) :
    segmentAt (before ++ n :: after) (before.sum + off) = some ⟨before.sum, n⟩ := by
  induction before with
  | nil =>
    rw [List.sum_nil, Nat.zero_add]
    exact segmentAt_of_lt hoff
  | cons m before ih =>
    rw [List.cons_append, List.sum_cons, segmentAt_of_le (by omega), Nat.add_assoc,
      Nat.add_sub_cancel_left, ih]
    rfl

theorem eq_append_of_segmentAt (h : segmentAt lens p = some s) :
    ∃ before after, lens = before ++ s.length :: after ∧ before.sum = s.start ∧ s.start ≤ p ∧
      p < s.start + s.length := by
  induction lens generalizing p s with
  | nil => cases h
  | cons n lens ih =>
    by_cases hp : p < n
    · rw [segmentAt_of_lt hp] at h
      cases h
      exact ⟨[], lens, rfl, rfl, Nat.zero_le p, by simpa using hp⟩
    · rw [segmentAt_of_le (Nat.le_of_not_lt hp), Option.map_eq_some_iff] at h
      obtain ⟨t, ht, rfl⟩ := h
      obtain ⟨before, after, rfl, hstart, hle, hlt⟩ := ih ht
      simp only [Segment.start_shift, Segment.length_shift]
      exact ⟨n :: before, after, rfl, by rw [List.sum_cons, hstart], by omega, by omega⟩

/-- The segment is one of the lengths, starts where those before it end, and contains the
position. -/
theorem segmentAt_eq_some_iff :
    segmentAt lens p = some s ↔ ∃ before after, lens = before ++ s.length :: after ∧
      before.sum = s.start ∧ s.start ≤ p ∧ p < s.start + s.length := by
  constructor
  · exact eq_append_of_segmentAt
  · rintro ⟨before, after, rfl, hstart, hle, hlt⟩
    obtain ⟨off, rfl⟩ := Nat.exists_eq_add_of_le hle
    rw [← hstart, segmentAt_append_cons before after (by omega), hstart]

/-- There is one for every position below the sum. -/
theorem exists_segmentAt (h : p < lens.sum) : ∃ s, segmentAt lens p = some s := by
  induction lens generalizing p with
  | nil => simp at h
  | cons n lens ih =>
    rw [List.sum_cons] at h
    by_cases hp : p < n
    · exact ⟨_, segmentAt_of_lt hp⟩
    · obtain ⟨s, hs⟩ := ih (p := p - n) (by omega)
      rw [segmentAt_of_le (Nat.le_of_not_lt hp), hs]
      exact ⟨_, rfl⟩

theorem segmentAt_bounds (h : segmentAt lens p = some s) :
    s.start ≤ p ∧ p < s.start + s.length ∧ s.start + s.length ≤ lens.sum := by
  obtain ⟨before, after, rfl, hstart, hle, hlt⟩ := segmentAt_eq_some_iff.mp h
  refine ⟨hle, hlt, ?_⟩
  rw [List.sum_append, List.sum_cons, hstart]
  omega

theorem segmentAt_append_left {l l' : List ℕ} (h : p < l.sum) :
    segmentAt (l ++ l') p = segmentAt l p := by
  obtain ⟨s, hs⟩ := exists_segmentAt h
  obtain ⟨before, after, rfl, hstart, hle, hlt⟩ := segmentAt_eq_some_iff.mp hs
  rw [hs, segmentAt_eq_some_iff]
  exact ⟨before, after ++ l', by simp, hstart, hle, hlt⟩

theorem segmentAt_append_right {l l' : List ℕ} (h : l.sum ≤ p) :
    segmentAt (l ++ l') p = (segmentAt l' (p - l.sum)).map (Segment.shift l.sum) := by
  induction l generalizing p with
  | nil => simp [Segment.shift_zero]
  | cons n l ih =>
    rw [List.sum_cons] at h
    rw [List.cons_append, segmentAt_of_le (by omega), ih (by omega), Option.map_map, List.sum_cons,
      Nat.sub_sub, Segment.shift_comp]

/-- Where every length is the sum of a group, the segment among the groups is that of the group
of the large segment. -/
theorem segmentAt_flatten {R : ℕ → List ℕ → Prop} {groups : List (List ℕ)}
    (h : List.Forall₂ R lens groups) (hsum : ∀ n group, R n group → group.sum = n)
    (hs : segmentAt lens p = some s) :
    ∃ group, R s.length group ∧
      segmentAt groups.flatten p = (segmentAt group (p - s.start)).map (Segment.shift s.start) := by
  induction h generalizing p s with
  | nil => cases hs
  | @cons n group lens groups hgroup _ ih =>
    have hn := hsum n group hgroup
    by_cases hp : p < n
    · rw [segmentAt_of_lt hp] at hs
      cases hs
      refine ⟨group, hgroup, ?_⟩
      rw [List.flatten_cons, segmentAt_append_left (hn ▸ hp), Segment.shift_zero, Option.map_id,
        id, Nat.sub_zero]
    · have hle := Nat.le_of_not_lt hp
      rw [segmentAt_of_le hle] at hs
      obtain ⟨t, ht, rfl⟩ := Option.map_eq_some_iff.mp hs
      obtain ⟨g, hg, heq⟩ := ih ht
      refine ⟨g, hg, ?_⟩
      rw [List.flatten_cons, segmentAt_append_right (hn ▸ hle), hn, heq, Option.map_map,
        Segment.start_shift, Nat.sub_sub, Segment.shift_comp]

end Imperative
