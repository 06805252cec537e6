import Lzbench.Lib.Loop
import Mathlib.Algebra.BigOperators.Group.Multiset.Basic
import Mathlib.Algebra.BigOperators.Ring.Multiset
import Mathlib.Algebra.Order.Ring.Basic
import Mathlib.Algebra.Order.BigOperators.Group.Multiset
import Mathlib.Data.List.Sort
import Mathlib.Data.Nat.Fib.Basic

/-!
# Huffman's algorithm

Trees are kept in a priority queue; the two lightest are taken out and joined, until one is
left.  Which of several equally light trees is taken is left open, as it is for
`std::priority_queue`.

What holds of the last tree is shown with an invariant of the trees in the queue.  There are
three: which leaves there are, that the weight of a tree grows with its height like the
Fibonacci numbers, and that no code of the same leaves costs less.

## Main definitions

* `PriorityQueue` — a queue that gives out an element of least key.
* `HuffmanTree.build` — the algorithm.
* `HuffmanTree.build_induction` — the rule for an invariant of the queue.
* `HuffmanTree.kraft` — the depths of the leaves are the lengths of a full code.
* `HuffmanTree.fib_height_le` — a tree of a given height has at least this weight.
* `HuffmanTree.build_optimal` — no lengths that satisfy the inequality of Kraft are better.
-/

namespace Imperative

universe u

variable {α : Type u}

/-! ## Priority queues -/

/-- A priority queue. -/
structure PriorityQueue (α : Type u) (key : α → ℕ) where
  Queue : Type u
  ofList : List α → Queue
  pop : Queue → Option (α × Queue)
  push : Queue → α → Queue
  elems : Queue → Multiset α
  elems_ofList : ∀ l, elems (ofList l) = l
  elems_push : ∀ q x, elems (push q x) = x ::ₘ elems q
  pop_none : ∀ q, pop q = none → elems q = 0
  pop_some : ∀ q x q', pop q = some (x, q') →
    elems q = x ::ₘ elems q' ∧ ∀ y ∈ elems q', key x ≤ key y

/-- A sorted list is one. -/
def PriorityQueue.sorted (key : α → ℕ) : PriorityQueue α key where
  Queue := { l : List α // l.Pairwise fun a b => key a ≤ key b }
  ofList l := ⟨l.insertionSort fun a b => key a ≤ key b, by
    have htotal : Std.Total fun a b : α => key a ≤ key b := ⟨fun a b => le_total _ _⟩
    have htrans : IsTrans α fun a b => key a ≤ key b := ⟨fun _ _ _ => le_trans⟩
    exact List.pairwise_insertionSort _ l⟩
  pop q :=
    match q with
    | ⟨[], _⟩ => none
    | ⟨x :: l, h⟩ => some (x, ⟨l, h.of_cons⟩)
  push q x := ⟨q.1.orderedInsert (fun a b => key a ≤ key b) x, by
    have htotal : Std.Total fun a b : α => key a ≤ key b := ⟨fun a b => le_total _ _⟩
    have htrans : IsTrans α fun a b => key a ≤ key b := ⟨fun _ _ _ => le_trans⟩
    exact List.Pairwise.orderedInsert x q.1 q.2⟩
  elems q := q.1
  elems_ofList l := Multiset.coe_eq_coe.mpr (List.perm_insertionSort _ l)
  elems_push q x := Multiset.coe_eq_coe.mpr (List.perm_orderedInsert _ x q.1)
  pop_none q h := by
    obtain ⟨l, hl⟩ := q
    cases l with
    | nil => rfl
    | cons x l => cases h
  pop_some q x q' h := by
    obtain ⟨l, hl⟩ := q
    cases l with
    | nil => cases h
    | cons y l =>
      cases h
      exact ⟨rfl, fun z hz => List.rel_of_pairwise_cons hl hz⟩

/-! ## Trees -/

/-- A tree with symbols and weights at the leaves. -/
inductive HuffmanTree (α : Type u)
  | leaf (id : α) (weight : ℕ)
  | node (child1 child2 : HuffmanTree α)

namespace HuffmanTree

def weight : HuffmanTree α → ℕ
  | leaf _ w => w
  | node l r => l.weight + r.weight

def height : HuffmanTree α → ℕ
  | leaf _ _ => 0
  | node l r => max l.height r.height + 1

/-- The leaves, with their weights. -/
def leaves : HuffmanTree α → List (α × ℕ)
  | leaf id w => [(id, w)]
  | node l r => l.leaves ++ r.leaves

/-- The leaves with their depths, for a tree whose root is at depth `d`. -/
def depths : HuffmanTree α → ℕ → List ((α × ℕ) × ℕ)
  | leaf id w, d => [((id, w), d)]
  | node l r, d => l.depths (d + 1) ++ r.depths (d + 1)

/-- The weights of all inner nodes. -/
def cost : HuffmanTree α → ℕ
  | leaf _ _ => 0
  | node l r => l.cost + r.cost + (l.weight + r.weight)

theorem map_fst_depths (t : HuffmanTree α) (d : ℕ) : (t.depths d).map Prod.fst = t.leaves := by
  induction t generalizing d with
  | leaf id w => rfl
  | node l r hl hr => simp [depths, leaves, hl, hr]

theorem depth_le {t : HuffmanTree α} {d : ℕ} {p : (α × ℕ) × ℕ} (hp : p ∈ t.depths d) :
    p.2 ≤ d + t.height := by
  induction t generalizing d with
  | leaf id w => simp_all [depths, height]
  | node l r hl hr =>
    simp only [depths, List.mem_append, height] at hp ⊢
    cases hp with
    | inl h => have := hl h; omega
    | inr h => have := hr h; omega

theorem exists_depth (t : HuffmanTree α) (d : ℕ) : ∃ p ∈ t.depths d, p.2 = d + t.height := by
  induction t generalizing d with
  | leaf id w => exact ⟨_, List.mem_singleton_self _, rfl⟩
  | node l r hl hr =>
    simp only [depths, height, List.mem_append]
    cases le_total l.height r.height with
    | inl h =>
      obtain ⟨p, hp, heq⟩ := hr (d + 1)
      exact ⟨p, Or.inr hp, by omega⟩
    | inr h =>
      obtain ⟨p, hp, heq⟩ := hl (d + 1)
      exact ⟨p, Or.inl hp, by omega⟩

/-- The cost of a tree is that of its code. -/
theorem sum_weight_mul_depth (t : HuffmanTree α) (d : ℕ) :
    ((t.depths d).map fun p => p.1.2 * p.2).sum = t.cost + d * t.weight := by
  induction t generalizing d with
  | leaf id w => simp [depths, cost, weight, Nat.mul_comm]
  | node l r hl hr =>
    simp only [depths, List.map_append, List.sum_append, hl, hr, cost, weight]
    ring

theorem weight_eq_sum (t : HuffmanTree α) (d : ℕ) :
    t.weight = ((t.depths d).map fun p => p.1.2).sum := by
  induction t generalizing d with
  | leaf id w => simp [depths, weight]
  | node l r hl hr => simp [depths, weight, ← hl, ← hr]

theorem le_depth {t : HuffmanTree α} {d : ℕ} {p : (α × ℕ) × ℕ} (hp : p ∈ t.depths d) :
    d ≤ p.2 := by
  induction t generalizing d with
  | leaf id w => simp_all [depths]
  | node l r hl hr =>
    rw [depths, List.mem_append] at hp
    cases hp with
    | inl h => exact (Nat.le_succ d).trans (hl h)
    | inr h => exact (Nat.le_succ d).trans (hr h)

/-- The depths fill the space of codes. -/
theorem kraft (t : HuffmanTree α) {d H : ℕ} (hd : d + t.height ≤ H) :
    ((t.depths d).map fun p => 2 ^ (H - p.2)).sum = 2 ^ (H - d) := by
  induction t generalizing d with
  | leaf id w => simp [depths]
  | node l r hl hr =>
    simp only [height] at hd
    simp only [depths, List.map_append, List.sum_append]
    rw [hl (by omega), hr (by omega), ← Nat.two_mul, ← Nat.pow_succ',
      show (H - (d + 1)).succ = H - d by omega]

/-! ## The algorithm -/

section Build

variable (pq : PriorityQueue (HuffmanTree α) weight)

/-- The two lightest trees are joined; the last tree is the result. -/
def mergeStep (q : pq.Queue) : pq.Queue ⊕ Option (HuffmanTree α) :=
  match pq.pop q with
  | none => .inr none
  | some (min1, q1) =>
    match pq.pop q1 with
    | none => .inr (some min1)
    | some (min2, q2) => .inl (pq.push q2 (.node min1 min2))

/-- The tree for some symbols with weights; there is none for no symbols. -/
def build (l : List (α × ℕ)) : Option (HuffmanTree α) :=
  (loopTo (mergeStep pq) (l.length + 1) (pq.ofList (l.map fun p => .leaf p.1 p.2))).join

section Induction

variable {I : Multiset (HuffmanTree α) → Prop}

/-- An invariant holds of the last tree if it is kept when the two lightest trees are joined. -/
theorem merge_induction
    (hstep : ∀ a b R, a.weight ≤ b.weight → (∀ t ∈ R, b.weight ≤ t.weight) →
      I (a ::ₘ b ::ₘ R) → I (.node a b ::ₘ R))
    (fuel : ℕ) {q : pq.Queue} (hq : I (pq.elems q)) (hne : pq.elems q ≠ 0)
    (hfuel : (pq.elems q).card < fuel) :
    ∃ t, loopTo (mergeStep pq) fuel q = some (some t) ∧ I {t} := by
  induction fuel generalizing q with
  | zero => exact absurd hfuel (Nat.not_lt_zero _)
  | succ fuel ih =>
    cases hp : pq.pop q with
    | none => exact absurd (pq.pop_none q hp) hne
    | some r =>
      obtain ⟨a, q₁⟩ := r
      obtain ⟨hq₁, ha⟩ := pq.pop_some q a q₁ hp
      cases hp₁ : pq.pop q₁ with
      | none =>
        have hlast : mergeStep pq q = .inr (some a) := by simp only [mergeStep, hp, hp₁]
        rw [hq₁, pq.pop_none q₁ hp₁] at hq
        exact ⟨a, loopTo_return hlast fuel, hq⟩
      | some r =>
        obtain ⟨b, q₂⟩ := r
        obtain ⟨hq₂, hb⟩ := pq.pop_some q₁ b q₂ hp₁
        have hnext : mergeStep pq q = .inl (pq.push q₂ (.node a b)) := by
          simp only [mergeStep, hp, hp₁]
        have hab : a.weight ≤ b.weight := ha b (by simp [hq₂])
        rw [hq₁, hq₂] at hq hfuel
        rw [Multiset.card_cons, Multiset.card_cons] at hfuel
        have hI := hstep a b _ hab hb hq
        rw [← pq.elems_push] at hI
        obtain ⟨t, hrun, ht⟩ := ih hI (by simp [pq.elems_push]) (by
          rw [pq.elems_push, Multiset.card_cons]
          omega)
        exact ⟨t, by rw [loopTo_next hnext, hrun], ht⟩

/-- The rule for the algorithm. -/
theorem build_induction {l : List (α × ℕ)} (hl : l ≠ [])
    (hbegin : I (l.map fun p => leaf p.1 p.2 : List (HuffmanTree α)))
    (hstep : ∀ a b R, a.weight ≤ b.weight → (∀ t ∈ R, b.weight ≤ t.weight) →
      I (a ::ₘ b ::ₘ R) → I (.node a b ::ₘ R)) :
    ∃ t, build pq l = some t ∧ I {t} := by
  have helems := pq.elems_ofList (l.map fun p => .leaf p.1 p.2)
  obtain ⟨t, hrun, ht⟩ := merge_induction pq hstep (l.length + 1) (by rwa [helems])
    (by simpa [helems] using hl) (by simp [helems])
  exact ⟨t, by rw [build, hrun]; rfl, ht⟩

end Induction

theorem build_nil : build pq [] = none := by
  have hempty := pq.elems_ofList []
  cases hp : pq.pop (pq.ofList []) with
  | none =>
    have hlast : mergeStep pq (pq.ofList []) = .inr none := by simp only [mergeStep, hp]
    rw [build, List.map_nil, loopTo_return hlast]
    rfl
  | some r =>
    have hpop := (pq.pop_some _ r.1 r.2 hp).1
    rw [hempty] at hpop
    exact absurd hpop.symm Multiset.cons_ne_zero

/-- No leaf is lost. -/
theorem build_leaves {l : List (α × ℕ)} (hl : l ≠ []) :
    ∃ t, build pq l = some t ∧ t.leaves.Perm l := by
  obtain ⟨t, hrun, ht⟩ := build_induction pq (I := fun F =>
    F.bind (fun t => (t.leaves : Multiset (α × ℕ))) = l) hl
    (by simp [Multiset.coe_bind, List.flatMap_map, leaves])
    fun a b R _ _ h => by simpa [leaves, ← Multiset.coe_add, add_assoc] using h
  exact ⟨t, hrun, by simpa using ht⟩

end Build

/-! ## Height -/

/-- Every tree of the queue is as heavy as its height demands, and no other tree of the queue
is much lighter. -/
def Heavy (F : Multiset (HuffmanTree α)) : Prop :=
  ∀ t ∈ F, Nat.fib (t.height + 2) ≤ t.weight ∧ ∀ u ∈ F, Nat.fib (t.height + 1) ≤ u.weight

theorem heavy_merge {a b : HuffmanTree α} {R : Multiset (HuffmanTree α)}
    (hab : a.weight ≤ b.weight) (hR : ∀ t ∈ R, b.weight ≤ t.weight)
    (h : Heavy (a ::ₘ b ::ₘ R)) : Heavy (.node a b ::ₘ R) := by
  obtain ⟨ha, ha'⟩ := h a (by simp)
  obtain ⟨hb, hb'⟩ := h b (by simp)
  have hsum : Nat.fib ((node a b).height + 2) ≤ a.weight + b.weight := by
    have hrec := Nat.fib_add_two (n := max a.height b.height + 1)
    simp only [height]
    rw [hrec]
    -- the higher of the two counts in full, the other as one that was in the queue with it
    cases le_total a.height b.height with
    | inl hle =>
      rw [max_eq_right hle]
      have := hb' a (by simp)
      exact Nat.add_le_add this hb
    | inr hle =>
      rw [max_eq_left hle, Nat.add_comm]
      have := ha' b (by simp)
      exact Nat.add_le_add ha this
  have hlow : ∀ t ∈ R, Nat.fib ((node a b).height + 1) ≤ t.weight := by
    intro t ht
    simp only [height]
    have hbt := hR t ht
    cases le_total a.height b.height with
    | inl hle =>
      rw [max_eq_right hle]
      exact hb.trans hbt
    | inr hle =>
      rw [max_eq_left hle]
      exact ha.trans (hab.trans hbt)
  intro t ht
  cases Multiset.mem_cons.mp ht with
  | inl heq =>
    rw [heq]
    refine ⟨hsum, fun u hu => ?_⟩
    cases Multiset.mem_cons.mp hu with
    | inl heq => rw [heq]; exact Nat.fib_le_fib_succ.trans hsum
    | inr hmem => exact hlow u hmem
  | inr hmem =>
    obtain ⟨ht, ht'⟩ := h t (by simp [hmem])
    refine ⟨ht, fun u hu => ?_⟩
    cases Multiset.mem_cons.mp hu with
    | inl heq =>
      rw [heq]
      exact (ht' a (by simp)).trans (Nat.le_add_right _ _)
    | inr hu => exact ht' u (by simp [hu])

/-- A high tree is heavy. -/
theorem fib_height_le {pq : PriorityQueue (HuffmanTree α) weight} {l : List (α × ℕ)}
    {t : HuffmanTree α} (hl : l ≠ []) (hpos : ∀ p ∈ l, 0 < p.2) (ht : build pq l = some t) :
    Nat.fib (t.height + 2) ≤ t.weight := by
  have hone : ∀ u ∈ l.map fun p => leaf p.1 p.2, u.height = 0 ∧ 1 ≤ u.weight := by
    intro u hu
    obtain ⟨p, hp, rfl⟩ := List.mem_map.mp hu
    exact ⟨rfl, hpos p hp⟩
  obtain ⟨t', hrun, ht'⟩ := build_induction pq (I := Heavy) hl
    (fun u hu => by
      rw [(hone u hu).1]
      exact ⟨(hone u hu).2, fun v hv => (hone v hv).2⟩)
    fun a b R => heavy_merge
  obtain rfl : t' = t := Option.some.inj (hrun.symm.trans ht)
  exact (ht' t' (by simp)).1

/-! ## Optimality -/

section Optimal

/-- Trees with the lengths of their codes. -/
abbrev Coded (α : Type u) := Multiset (HuffmanTree α × ℕ)

/-- What the code costs. -/
def Coded.cost (P : Coded α) : ℕ := (P.map fun p => p.1.cost + p.1.weight * p.2).sum

/-- The tree with its length, and the others. -/
theorem Coded.exists_cons {P : Coded α} {a : HuffmanTree α} {F : Multiset (HuffmanTree α)}
    (h : P.map Prod.fst = a ::ₘ F) : ∃ m Q, P = (a, m) ::ₘ Q ∧ Q.map Prod.fst = F := by
  classical
  obtain ⟨⟨a', m⟩, hmem, rfl, hrest⟩ := (Multiset.map_eq_cons _ _ _ _).mpr h
  obtain ⟨Q, rfl⟩ := Multiset.exists_cons_of_mem hmem
  rw [Multiset.erase_cons_head] at hrest
  exact ⟨m, Q, rfl, hrest⟩

/-- The inequality of Kraft, for lengths of at most `H` bits. -/
def Kraft (H : ℕ) (L : Multiset ℕ) : Prop :=
  (∀ m ∈ L, m ≤ H) ∧ (L.map fun m => 2 ^ (H - m)).sum ≤ 2 ^ H

/-- Lengths can be exchanged until a tree that is not heavier than any other has the longest
code; this does not make the code cost more. -/
theorem exists_longest (a : HuffmanTree α) (P : Coded α) (ha : ∀ p ∈ P, a.weight ≤ p.1.weight)
    (n : ℕ) : ∃ (m : ℕ) (Q : Coded α), Q.map Prod.fst = P.map Prod.fst ∧
      m ::ₘ Q.map Prod.snd = n ::ₘ P.map Prod.snd ∧ (∀ p ∈ Q, p.2 ≤ m) ∧
      Coded.cost ((a, m) ::ₘ Q) ≤ Coded.cost ((a, n) ::ₘ P) := by
  induction P using Multiset.induction_on with
  | empty => exact ⟨n, 0, rfl, rfl, by simp, le_rfl⟩
  | cons x P ih =>
    obtain ⟨m, Q, hfst, hsnd, hmax, hcost⟩ := ih fun p hp => ha p (by simp [hp])
    have hax : a.weight ≤ x.1.weight := ha x (by simp)
    simp only [Coded.cost, Multiset.map_cons, Multiset.sum_cons] at hcost ⊢
    cases le_or_gt x.2 m with
    | inl hle =>
      refine ⟨m, x ::ₘ Q, by simp [hfst], ?_, ?_, ?_⟩
      · rw [Multiset.map_cons, Multiset.cons_swap, hsnd, Multiset.cons_swap]
      · simpa [hle] using hmax
      · simp only [Multiset.map_cons, Multiset.sum_cons]
        omega
    | inr hlt =>
      refine ⟨x.2, (x.1, m) ::ₘ Q, by simp [hfst], ?_, ?_, ?_⟩
      · rw [Multiset.map_cons, hsnd, Multiset.cons_swap]
      · intro p hp
        cases Multiset.mem_cons.mp hp with
        | inl heq => exact heq ▸ hlt.le
        | inr hmem => exact (hmax p hmem).trans hlt.le
      · simp only [Multiset.map_cons, Multiset.sum_cons]
        -- the longer code goes to the lighter tree
        have hswap := mul_add_mul_le_mul_add_mul hax hlt.le
        omega

/-- Of the two longest lengths the longer one can be made as short as the other, and the two
can be joined to one that is shorter by a bit. -/
theorem Kraft.join {H m n : ℕ} {L : Multiset ℕ} (h : Kraft H (m ::ₘ n ::ₘ L))
    (hmax : ∀ k ∈ L, k ≤ n) : 0 < n ∧ Kraft H ((n - 1) ::ₘ L) := by
  obtain ⟨hle, hsum⟩ := h
  have hn : n ≤ H := hle n (by simp)
  simp only [Multiset.map_cons, Multiset.sum_cons] at hsum
  have hm : 0 < 2 ^ (H - m) := Nat.two_pow_pos _
  -- every other share is a multiple of that of `n`
  have hdvd : 2 ^ (H - n) ∣ (L.map fun k => 2 ^ (H - k)).sum := by
    refine Multiset.dvd_sum fun x hx => ?_
    obtain ⟨k, hk, rfl⟩ := Multiset.mem_map.mp hx
    have hkn := hmax k hk
    exact pow_dvd_pow 2 (by omega)
  have hH : 2 ^ (H - n) ∣ 2 ^ H := pow_dvd_pow 2 (Nat.sub_le _ _)
  have hrest := Nat.le_of_dvd (by omega)
    (Nat.dvd_sub hH (dvd_add (dvd_refl (2 ^ (H - n))) hdvd))
  have hpos : 0 < n := by
    by_contra h0
    obtain rfl : n = 0 := by omega
    rw [Nat.sub_zero] at hsum
    omega
  refine ⟨hpos, fun k hk => ?_, ?_⟩
  · cases Multiset.mem_cons.mp hk with
    | inl heq => omega
    | inr hmem => exact hle k (by simp [hmem])
  · have hshare : 2 ^ (H - (n - 1)) = 2 ^ (H - n) * 2 := by
      rw [← Nat.pow_succ, show (H - n).succ = H - (n - 1) by omega]
    simp only [Multiset.map_cons, Multiset.sum_cons]
    omega

/-- The two lightest trees can have the longest codes, and so be joined. -/
theorem Coded.merge {H ma mb : ℕ} {a b : HuffmanTree α} {R : Coded α}
    (hab : a.weight ≤ b.weight) (hR : ∀ p ∈ R, b.weight ≤ p.1.weight)
    (hP : Kraft H (ma ::ₘ mb ::ₘ R.map Prod.snd)) :
    ∃ (m : ℕ) (Q : Coded α), Q.map Prod.fst = R.map Prod.fst ∧
      Kraft H (m ::ₘ Q.map Prod.snd) ∧
      Coded.cost ((node a b, m) ::ₘ Q) ≤ Coded.cost ((a, ma) ::ₘ (b, mb) ::ₘ R) := by
  obtain ⟨m₁, P₁, hfst₁, hsnd₁, hmax₁, hcost₁⟩ := exists_longest a ((b, mb) ::ₘ R) (by
    intro p hp
    cases Multiset.mem_cons.mp hp with
    | inl heq => exact heq ▸ hab
    | inr hmem => exact hab.trans (hR p hmem)) ma
  rw [Multiset.map_cons] at hfst₁ hsnd₁
  obtain ⟨nb, P, rfl, hrest⟩ := Coded.exists_cons hfst₁
  have hweight : ∀ p ∈ P, b.weight ≤ p.1.weight := by
    intro p hp
    have hfst := Multiset.mem_map_of_mem Prod.fst hp
    rw [hrest] at hfst
    obtain ⟨q, hq, heq⟩ := Multiset.mem_map.mp hfst
    exact heq ▸ hR q hq
  obtain ⟨m₂, Q, hfst₂, hsnd₂, hmax₂, hcost₂⟩ := exists_longest b P hweight nb
  have hlengths : m₁ ::ₘ m₂ ::ₘ Q.map Prod.snd = ma ::ₘ mb ::ₘ R.map Prod.snd := by
    rw [hsnd₂, ← hsnd₁, Multiset.map_cons]
  rw [← hlengths] at hP
  obtain ⟨hpos, hjoin⟩ := hP.join fun k hk => by
    obtain ⟨q, hq, rfl⟩ := Multiset.mem_map.mp hk
    exact hmax₂ q hq
  have hle : m₂ ≤ m₁ := by
    have hin : m₂ ∈ nb ::ₘ P.map Prod.snd := hsnd₂ ▸ Multiset.mem_cons_self _ _
    rw [← Multiset.map_cons Prod.snd (b, nb)] at hin
    obtain ⟨q, hq, heq⟩ := Multiset.mem_map.mp hin
    exact heq ▸ hmax₁ q hq
  refine ⟨m₂ - 1, Q, hfst₂.trans hrest, hjoin, ?_⟩
  obtain ⟨n, rfl⟩ := Nat.exists_eq_succ_of_ne_zero hpos.ne'
  simp only [Coded.cost, Multiset.map_cons, Multiset.sum_cons, HuffmanTree.cost, weight,
    Nat.succ_sub_one] at hcost₁ hcost₂ ⊢
  have hlong := Nat.mul_le_mul_left a.weight hle
  rw [Nat.mul_succ] at hlong hcost₂
  rw [Nat.add_mul]
  omega

/-- The trees can be coded at a cost of at most `C`. -/
def CodedWithin (H C : ℕ) (F : Multiset (HuffmanTree α)) : Prop :=
  ∃ P : Coded α, P.map Prod.fst = F ∧ Kraft H (P.map Prod.snd) ∧ P.cost ≤ C

theorem codedWithin_merge {H C : ℕ} {a b : HuffmanTree α} {R : Multiset (HuffmanTree α)}
    (hab : a.weight ≤ b.weight) (hR : ∀ t ∈ R, b.weight ≤ t.weight)
    (h : CodedWithin H C (a ::ₘ b ::ₘ R)) : CodedWithin H C (.node a b ::ₘ R) := by
  obtain ⟨P, hP, hk, hc⟩ := h
  obtain ⟨ma, Pa, rfl, ha⟩ := Coded.exists_cons hP
  obtain ⟨mb, Pb, rfl, hb⟩ := Coded.exists_cons ha
  rw [Multiset.map_cons, Multiset.map_cons] at hk
  obtain ⟨m, Q, hQ, hkQ, hcQ⟩ := Coded.merge hab
    (fun p hp => hR _ (hb ▸ Multiset.mem_map_of_mem Prod.fst hp)) hk
  refine ⟨(node a b, m) ::ₘ Q, ?_, ?_, hcQ.trans hc⟩
  · rw [Multiset.map_cons, hQ, hb]
  · rwa [Multiset.map_cons]

/-- The tree is as good as any lengths that satisfy the inequality of Kraft. -/
theorem build_optimal {pq : PriorityQueue (HuffmanTree α) weight} {l : List (α × ℕ)}
    {t : HuffmanTree α} (hl : l ≠ []) (ht : build pq l = some t) {H : ℕ} {len : α → ℕ}
    (hlen : ∀ p ∈ l, len p.1 ≤ H) (hkraft : (l.map fun p => 2 ^ (H - len p.1)).sum ≤ 2 ^ H) :
    t.cost ≤ (l.map fun p => p.2 * len p.1).sum := by
  have hbegin : CodedWithin H (l.map fun p => p.2 * len p.1).sum
      (Multiset.ofList (l.map fun p => leaf p.1 p.2)) := by
    refine ⟨(l.map fun p => (leaf p.1 p.2, len p.1) : List (HuffmanTree α × ℕ)), ?_, ⟨?_, ?_⟩, ?_⟩
    · simp [Function.comp_def]
    · intro m hm
      simp only [Multiset.map_coe, List.map_map, Multiset.mem_coe, List.mem_map,
        Function.comp_apply] at hm
      obtain ⟨p, hp, rfl⟩ := hm
      exact hlen p hp
    · simpa [Function.comp_def] using hkraft
    · simp [Coded.cost, Function.comp_def, HuffmanTree.cost, weight]
  obtain ⟨t', hrun, P, hfst, -, hcost⟩ := build_induction pq hl hbegin
    fun a b R => codedWithin_merge
  obtain rfl : t' = t := Option.some.inj (hrun.symm.trans ht)
  obtain ⟨⟨t'', m⟩, rfl, rfl⟩ := Multiset.map_eq_singleton.mp hfst
  simp only [Coded.cost, Multiset.map_singleton, Multiset.sum_singleton] at hcost
  exact (Nat.le_add_right _ _).trans hcost

/-- The same, where every code has a bit. -/
theorem build_optimal_of_pos {pq : PriorityQueue (HuffmanTree α) weight} {l : List (α × ℕ)}
    {t : HuffmanTree α} (ht : build pq l = some t) (H : ℕ) (len : α → ℕ)
    (hpos : ∀ p ∈ l, 0 < len p.1) (hlen : ∀ p ∈ l, len p.1 ≤ H)
    (hkraft : (l.map fun p => 2 ^ (H - len p.1)).sum ≤ 2 ^ H) :
    ((t.depths 0).map fun p => p.1.2 * max p.2 1).sum ≤ (l.map fun p => p.2 * len p.1).sum := by
  have hl : l ≠ [] := by
    rintro rfl
    rw [build_nil] at ht
    cases ht
  cases t with
  | leaf id w =>
    obtain ⟨t, hrun, hleaves⟩ := build_leaves pq hl
    obtain rfl : t = leaf id w := Option.some.inj (hrun.symm.trans ht)
    obtain rfl : l = [(id, w)] := List.perm_singleton.mp hleaves.symm
    simpa [depths] using Nat.le_mul_of_pos_right w (hpos (id, w) (by simp))
  | node c₁ c₂ =>
    have hone : ∀ p ∈ (node c₁ c₂).depths 0, max p.2 1 = p.2 := by
      intro p hp
      refine max_eq_left ?_
      rw [depths, List.mem_append] at hp
      cases hp with
      | inl h => exact le_depth h
      | inr h => exact le_depth h
    rw [List.map_congr_left fun p hp => by rw [hone p hp], sum_weight_mul_depth, Nat.zero_mul,
      Nat.add_zero]
    exact build_optimal hl ht hlen hkraft

end Optimal

end HuffmanTree

end Imperative
