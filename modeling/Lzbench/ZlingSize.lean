import Lzbench.ZlingBits

/-!
# How large a block of zling is

The Huffman codes are the best ones for the rounded frequencies.  So they are nearly as good as
codes of fixed lengths, which would be nine bits for all but four of the codes and five bits for
the upper part of an index; what rounding can cost is bounded by how many symbols there must be
before anything is rounded.

So a block never needs more room than the coder has for it, and grows by less than a sixth.

## Main definitions

* `BlockTables.bits_le_codes` — the bits of a block, by the number of its codes.
* `BlockTables.bits_le_bytes` — the bits of a block, by the number of bytes it stands for.
* `BlockTables.length_le` — a block fits `kBlockSizeHuffman` bytes.
-/

namespace Lzbench

open Imperative Finset

def kBlockSizeRolz : ℕ := 262144
def kBlockSizeHuffman : ℕ := 393216

/-! ## Sums over the symbols -/

theorem sum_count_mul {n : ℕ} {l : List ℕ} (hl : ∀ x ∈ l, x < n) (g : ℕ → ℕ) :
    ∑ i ∈ range n, l.count i * g i = (l.map g).sum := by
  induction l with
  | nil => simp
  | cons x l ih =>
    have hx : ∑ i ∈ range n, (if x = i then 1 else 0) * g i = g x := by
      simp [hl x List.mem_cons_self]
    rw [List.map_cons, List.sum_cons, ← ih fun y hy => hl y (List.mem_cons_of_mem _ hy), ← hx,
      ← sum_add_distrib]
    refine sum_congr rfl fun i _ => ?_
    rw [List.count_cons, ← Nat.add_mul, Nat.add_comm]
    simp [beq_iff_eq]

/-- A sum over the symbols that occur, as a sum over the occurrences. -/
theorem sum_countAll {n : ℕ} {l : List ℕ} (hl : ∀ x ∈ l, x < n) (g : ℕ → ℕ) :
    ∑ i ∈ range n with 0 < (countAll n l).getD i 0, (countAll n l).getD i 0 * g i =
      (l.map g).sum := by
  rw [← sum_count_mul hl, sum_filter_of_ne]
  · refine sum_congr rfl fun i hi => ?_
    have hget := (countAll_spec (n := n) l).2 i
    rw [if_pos (mem_range.mp hi), lens] at hget
    rw [hget]
  · intro i _ hne
    exact Nat.pos_of_ne_zero fun hzero => hne (by rw [hzero, Nat.zero_mul])

/-- The bits of all items. -/
theorem bitLength_flatMap (t : HuffmanTables) (items : List ZlingItem) :
    bitLength (items.flatMap (itemFields t)) =
      ((items.map Prod.fst).map (lens t.lengthTable1)).sum +
        ((indexCodes items).map fun code =>
          lens t.lengthTable2 code + matchidxBitlen.getD code 0).sum := by
  induction items with
  | nil => rfl
  | cons item items ih =>
    obtain ⟨c, idx⟩ := item
    rw [List.flatMap_cons, bitLength_append, ih]
    cases idx with
    | none =>
      simp only [itemFields, Option.elim_none, bitLength_cons, bitLength_nil, List.map_cons,
        List.sum_cons, indexCodes, List.filterMap_cons, Option.map_none]
      omega
    | some idx =>
      simp only [itemFields, Option.elim_some, bitLength_cons, bitLength_nil, List.map_cons,
        List.sum_cons, indexCodes, List.filterMap_cons, Option.map_some]
      omega

/-! ## Codes of fixed lengths -/

/-- Nine bits for all codes but four. -/
def fixedLen1 (i : ℕ) : ℕ := if 256 ≤ i ∧ i < 260 then 10 else 9

theorem fixedLen1_bounds (i : ℕ) : 0 < fixedLen1 i ∧ fixedLen1 i ≤ 10 := by
  rw [fixedLen1]
  split <;> decide

theorem kraftSum_fixedLen1 : kraftSum fixedLen1 kHuffmanCodes1 10 ≤ 2 ^ 10 := by decide +kernel

theorem sum_fixedLen1_sub : ∑ i ∈ range kHuffmanCodes1, (fixedLen1 i - 9) = 4 := by decide +kernel

theorem kraftSum_five : kraftSum (fun _ => 5) kHuffmanCodes2 5 ≤ 2 ^ 5 := by decide +kernel

/-- The bits of an item with these codes. -/
def fixedBits (item : ZlingItem) : ℕ := fixedLen1 item.1 + item.2.elim 0 fun _ => 13

section Size

variable {items : List ZlingItem} {scaling1 scaling2 : ℕ} {t : HuffmanTables}

theorem lt_of_mem_map_fst (hvalid : ∀ item ∈ items, item.Valid) :
    ∀ c ∈ items.map Prod.fst, c < kHuffmanCodes1 := by
  intro c hc
  obtain ⟨item, hitem, rfl⟩ := List.mem_map.mp hc
  exact (hvalid item hitem).lt

theorem lt_of_mem_indexCodes (hvalid : ∀ item ∈ items, item.Valid) :
    ∀ code ∈ indexCodes items, code < kHuffmanCodes2 := by
  intro code hcode
  obtain ⟨⟨c, idx⟩, hitem, hidx⟩ := List.mem_filterMap.mp hcode
  obtain ⟨idx, rfl, rfl⟩ := Option.map_eq_some_iff.mp hidx
  exact (matchidxCode_spec (hvalid _ hitem).2.2).1

/-- The first codes are nearly as good as those of nine and ten bits. -/
theorem BlockTables.bits1_le (h : BlockTables items scaling1 scaling2 t) :
    ((items.map Prod.fst).map (lens t.lengthTable1)).sum ≤
        ((items.map Prod.fst).map fixedLen1).sum + 260 * (2 ^ scaling1 - 1) ∧
      1035 * (2 ^ scaling1 - 1) ≤ items.length := by
  have hlt := lt_of_mem_map_fst h.codes.valid
  have hlength := h.length1
  rw [freqTable1_eq] at hlength
  have hcost := hlength.cost_le fixedLen1 (fun i _ _ => fixedLen1_bounds i) kraftSum_fixedLen1
  have hsub := hlength.sum_sub_le 9 fixedLen1
  have hrescaled := hlength.rescaled_le
  have hcount := sum_countAll hlt fun _ => 1
  simp only [Nat.mul_one, List.map_const', List.sum_replicate, smul_eq_mul, List.length_map]
    at hcount
  rw [sum_countAll hlt, sum_countAll hlt] at hcost
  rw [sum_fixedLen1_sub] at hsub
  rw [hcount, show Nat.fib (kHuffmanMaxLen1 + 3) - kHuffmanCodes1 = 2070 by decide +kernel]
    at hrescaled
  have hmul := Nat.mul_le_mul_left (2 ^ scaling1 - 1) hsub
  rw [Nat.mul_comm] at hrescaled
  refine ⟨by omega, ?_⟩
  clear hcost hsub hcount hmul
  omega

/-- The second ones are nearly as good as those of five bits. -/
theorem BlockTables.bits2_le (h : BlockTables items scaling1 scaling2 t) :
    ((indexCodes items).map (lens t.lengthTable2)).sum ≤
        5 * (indexCodes items).length + 16 * (2 ^ scaling2 - 1) ∧
      57 * (2 ^ scaling2 - 1) ≤ 2 * (indexCodes items).length := by
  have hlt := lt_of_mem_indexCodes h.codes.valid
  have hlength := h.length2
  rw [freqTable2_eq] at hlength
  have hcost := hlength.cost_le (fun _ => 5) (fun _ _ _ => ⟨by decide, le_rfl⟩) kraftSum_five
  have hsub := hlength.sum_sub_le 5 fun _ => 5
  have hrescaled := hlength.rescaled_le
  have hcount := sum_countAll hlt fun _ => 1
  simp only [Nat.mul_one, List.map_const', List.sum_replicate, smul_eq_mul] at hcount
  rw [sum_countAll hlt, sum_countAll hlt] at hcost
  simp only [List.map_const', List.sum_replicate, smul_eq_mul, Nat.sub_self, sum_const_zero,
    Nat.add_zero] at hcost hsub
  rw [hcount, show Nat.fib (kHuffmanMaxLen2 + 3) - kHuffmanCodes2 = 57 by decide +kernel]
    at hrescaled
  have hmul := Nat.mul_le_mul_left (2 ^ scaling2 - 1) hsub
  rw [Nat.mul_comm] at hrescaled
  refine ⟨by omega, ?_⟩
  clear hcost hsub hcount hmul
  omega

/-- What an item costs at most, in parts of a bit, `58995` of which are one. -/
def itemWeight (item : ZlingItem) : ℕ := 58995 * fixedBits item + item.2.elim 14820 fun _ => 47940

/-- The bits of a block are at most those of its items. -/
theorem BlockTables.bits_le (h : BlockTables items scaling1 scaling2 t) :
    58995 * bitLength (items.flatMap (itemFields t)) ≤ (items.map itemWeight).sum := by
  obtain ⟨hbits1, hextra1⟩ := h.bits1_le
  obtain ⟨hbits2, hextra2⟩ := h.bits2_le
  have hsplit : ((indexCodes items).map fun code =>
      lens t.lengthTable2 code + matchidxBitlen.getD code 0).sum ≤
      ((indexCodes items).map (lens t.lengthTable2)).sum + 8 * (indexCodes items).length := by
    generalize indexCodes items = l
    induction l with
    | nil => simp
    | cons code l ih =>
      have hle := matchidxBitlen_le code
      simp only [List.map_cons, List.sum_cons, List.length_cons]
      omega
  have hsum : (items.map itemWeight).sum = 58995 * ((items.map Prod.fst).map fixedLen1).sum +
      14820 * items.length + (58995 * 13 + 33120) * (indexCodes items).length := by
    clear h hbits1 hbits2 hextra1 hextra2 hsplit
    induction items with
    | nil => rfl
    | cons item items ih =>
      obtain ⟨c, idx⟩ := item
      cases idx with
      | none =>
        simp only [List.map_cons, List.sum_cons, ih, itemWeight, fixedBits, indexCodes,
          List.filterMap_cons, Option.map_none, Option.elim_none, List.length_cons]
        omega
      | some idx =>
        simp only [List.map_cons, List.sum_cons, ih, itemWeight, fixedBits, indexCodes,
          List.filterMap_cons, Option.map_some, Option.elim_some, List.length_cons]
        omega
  rw [bitLength_flatMap, hsum]
  omega

/-- A code weighs as much as half a match at most. -/
theorem itemWeight_le_codes {item : ZlingItem} (hitem : item.Valid) :
    itemWeight item ≤ 702413 * item.codes.length := by
  obtain ⟨c, idx⟩ := item
  have hlen := (fixedLen1_bounds c).2
  cases idx with
  | none =>
    simp only [itemWeight, fixedBits, Option.elim_none, ZlingItem.codes, Option.toList_none,
      List.length_singleton]
    omega
  | some idx =>
    simp only [itemWeight, fixedBits, Option.elim_some, ZlingItem.codes, Option.toList_some,
      List.length_cons, List.length_nil]
    omega

/-- A byte weighs as much as a literal at most. -/
theorem itemWeight_le_size {item : ZlingItem} (hitem : item.Valid) :
    itemWeight item ≤ 545775 * item.size := by
  obtain ⟨c, idx⟩ := item
  have hlen := (fixedLen1_bounds c).2
  cases idx with
  | none =>
    have hc : c < 258 := hitem
    simp only [itemWeight, fixedBits, Option.elim_none, ZlingItem.size]
    by_cases hlit : c < 256
    · rw [if_pos hlit, fixedLen1, if_neg (by omega)]
    · rw [if_neg hlit, if_pos hc]
      omega
  | some idx =>
    have hc : 258 ≤ c := hitem.1
    simp only [itemWeight, fixedBits, Option.elim_some, ZlingItem.size, if_neg (by omega :
      ¬ c < 256), if_neg (by omega : ¬ c < 258), kMatchMinLen]
    omega

/-- There are no more codes than bytes that they stand for. -/
theorem length_flatMap_codes_le (hvalid : ∀ item ∈ items, item.Valid) :
    (items.flatMap ZlingItem.codes).length ≤ (items.map ZlingItem.size).sum := by
  induction items with
  | nil => exact le_rfl
  | cons item items ih =>
    have hrest := ih fun item hitem => hvalid item (List.mem_cons_of_mem _ hitem)
    have hone : item.codes.length ≤ item.size := by
      obtain ⟨c, idx⟩ := item
      have hitem := hvalid _ List.mem_cons_self
      have hpos := ZlingItem.size_pos (c, idx)
      cases idx with
      | none => exact hpos
      | some idx =>
        have hc : 258 ≤ c := hitem.1
        simp only [ZlingItem.codes, Option.toList_some, List.length_cons, List.length_nil,
          ZlingItem.size, if_neg (by omega : ¬ c < 256), if_neg (by omega : ¬ c < 258),
          kMatchMinLen]
        omega
    rw [List.flatMap_cons, List.length_append, List.map_cons, List.sum_cons]
    omega

/-- The bits of a block, by the number of its codes. -/
theorem BlockTables.bits_le_codes (h : BlockTables items scaling1 scaling2 t) :
    58995 * bitLength (items.flatMap (itemFields t)) ≤
      702413 * (items.flatMap ZlingItem.codes).length := by
  refine h.bits_le.trans ?_
  have hvalid := h.codes.valid
  clear h
  induction items with
  | nil => exact Nat.zero_le _
  | cons item items ih =>
    have hone := itemWeight_le_codes (hvalid item List.mem_cons_self)
    have hrest := ih fun item hitem => hvalid item (List.mem_cons_of_mem _ hitem)
    rw [List.map_cons, List.sum_cons, List.flatMap_cons, List.length_append]
    omega

/-- The bits of a block, by the number of bytes that it stands for. -/
theorem BlockTables.bits_le_bytes (h : BlockTables items scaling1 scaling2 t) :
    58995 * bitLength (items.flatMap (itemFields t)) ≤
      545775 * (items.map ZlingItem.size).sum := by
  refine h.bits_le.trans ?_
  have hvalid := h.codes.valid
  clear h
  induction items with
  | nil => exact Nat.zero_le _
  | cons item items ih =>
    have hone := itemWeight_le_size (hvalid item List.mem_cons_self)
    have hrest := ih fun item hitem => hvalid item (List.mem_cons_of_mem _ hitem)
    rw [List.map_cons, List.sum_cons, List.map_cons, List.sum_cons]
    omega

/-- A block fits the buffer of the coder. -/
theorem BlockTables.length_le (h : BlockTables items scaling1 scaling2 t)
    (hlen : (items.flatMap ZlingItem.codes).length ≤ kBlockSizeRolz) :
    (encodeItems t items).length ≤ kBlockSizeHuffman := by
  have hsize := h.length_encodeItems
  have hbits := h.bits_le_codes
  simp only [kHuffmanCodes1, kHuffmanCodes2, kMatchMaxLen, kMatchMinLen, kBlockSizeRolz,
    kBlockSizeHuffman] at *
  omega

end Size

end Lzbench
