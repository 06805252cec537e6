import Lzbench.Lib.CanonicalCode
import Lzbench.Lib.Huffman
import Mathlib.Data.Nat.Fib.Basic
import Mathlib.Tactic.IntervalCases

/-!
# The Huffman codes of zling

`ZlingMakeLengthTable`, `ZlingMakeEncodeTable` and `ZlingMakeDecodeTable`.  Codes that are too
long are made shorter by rounding all frequencies to fewer bits and beginning again.

## Main definitions

* `zlingMakeLengthTable` — the lengths of the codes.
* `zlingMakeEncodeTable` — the codes, with the bit that comes first in the lowest place.
* `zlingMakeDecodeTable` — the symbols, by what is next in the stream.
-/

namespace Lzbench

open Imperative Finset

/-! ## Lengths -/

/-- A frequency without its last `scaling` bits, rounded up. -/
def scaled (freq scaling : ℕ) : ℕ := (freq + ((1 <<< scaling) - 1)) >>> scaling

/-- `nodes`: the symbols that occur, with their weights. -/
def huffmanNodes (freqTable : Array ℕ) (maxCodes scaling : ℕ) : List (ℕ × ℕ) :=
  ((List.range maxCodes).filter fun i => 0 < freqTable.getD i 0).map fun i =>
    (i, scaled (freqTable.getD i 0) scaling)

/-- `code_length_extractor`. -/
def codeLengthExtractor : HuffmanTree ℕ → ℕ → Array ℕ → Array ℕ
  | .leaf id _, codeLength, table => table.setIfInBounds id (max codeLength 1)
  | .node child1 child2, codeLength, table =>
    codeLengthExtractor child2 (codeLength + 1) (codeLengthExtractor child1 (codeLength + 1) table)

section

variable (pq : PriorityQueue (HuffmanTree ℕ) HuffmanTree.weight)

/-- What is done from the label on, with `scaling` and the table.  There is no tree if no symbol
occurs. -/
def lengthStep (freqTable : Array ℕ) (maxCodes maxCodelen : ℕ) (s : ℕ × Array ℕ) :
    (ℕ × Array ℕ) ⊕ Array ℕ :=
  match HuffmanTree.build pq (huffmanNodes freqTable maxCodes s.1) with
  | none => .inr s.2
  | some tree =>
    let table := codeLengthExtractor tree 0 s.2
    if table.any fun len => maxCodelen < len then .inl (s.1 + 1, table) else .inr table

/-- `ZlingMakeLengthTable`.  At a `scaling` of `30` all weights are `1`, for frequencies up to
`2 ^ 30`. -/
def zlingMakeLengthTable (freqTable : Array ℕ) (maxCodes maxCodelen : ℕ) : Option (Array ℕ) :=
  loopTo (lengthStep pq freqTable maxCodes maxCodelen) 31 (0, .replicate maxCodes 0)

end

/-! ## Codes -/

/-- A symbol of the length `codelen` gets the next code. -/
def assignCode (lengthTable : Array ℕ) (codelen : ℕ) (s : ℕ × Array ℕ) (i : ℕ) :
    ℕ × Array ℕ :=
  if lengthTable.getD i 0 = codelen then (s.1 + 1, s.2.setIfInBounds i (s.1 % 65536)) else s

/-- The symbols of the length `codelen` get their codes. -/
def assignCodes (lengthTable : Array ℕ) (maxCodes : ℕ) (s : ℕ × Array ℕ) (codelen : ℕ) :
    ℕ × Array ℕ :=
  let s := (List.range maxCodes).foldl (assignCode lengthTable codelen) s
  (s.1 * 2, s.2)

/-- The bits of a code, the other way round. -/
def reverseCode (code len : ℕ) : ℕ :=
  let code := (code &&& 0xff00) >>> 8 ||| (code &&& 0x00ff) <<< 8
  let code := (code &&& 0xf0f0) >>> 4 ||| (code &&& 0x0f0f) <<< 4
  let code := (code &&& 0xcccc) >>> 2 ||| (code &&& 0x3333) <<< 2
  let code := (code &&& 0xaaaa) >>> 1 ||| (code &&& 0x5555) <<< 1
  code >>> (16 - len)

/-- `ZlingMakeEncodeTable`. -/
def zlingMakeEncodeTable (lengthTable : Array ℕ) (maxCodes maxCodelen : ℕ) : Array ℕ :=
  let s := (List.range' 1 maxCodelen).foldl (assignCodes lengthTable maxCodes)
    (0, .replicate maxCodes 0)
  s.2.mapIdx fun i code => reverseCode code (lengthTable.getD i 0)

/-- `for (auto i = start; i < stop; i += step) table[i] = c`. -/
def fillFrom (start stop step c : ℕ) (table : Array ℕ) : Array ℕ :=
  (List.range' start ((stop - start + step - 1) / step) step).foldl
    (fun table i => table.setIfInBounds i c) table

/-- `ZlingMakeDecodeTable`; `65535` is `uint16_t(-1)`. -/
def zlingMakeDecodeTable (lengthTable encodeTable : Array ℕ) (maxCodes maxCodelen : ℕ) :
    Array ℕ :=
  (List.range maxCodes).foldl (fun table c =>
    if 0 < lengthTable.getD c 0 ∧ lengthTable.getD c 0 ≤ maxCodelen then
      fillFrom (encodeTable.getD c 0) (1 <<< maxCodelen) (1 <<< lengthTable.getD c 0) c table
    else table) (.replicate (1 <<< maxCodelen) 65535)

/-! ## What a round makes of the frequencies -/

theorem scaled_zero (scaling : ℕ) : scaled 0 scaling = 0 := by
  have hpos := Nat.two_pow_pos scaling
  rw [scaled, Nat.one_shiftLeft, Nat.shiftRight_eq_div_pow]
  exact Nat.div_eq_of_lt (by omega)

theorem scaled_by_zero (freq : ℕ) : scaled freq 0 = freq := by simp [scaled]

theorem scaled_bounds (freq scaling : ℕ) : freq ≤ 2 ^ scaling * scaled freq scaling ∧
    2 ^ scaling * scaled freq scaling ≤ freq + (2 ^ scaling - 1) := by
  have hpos := Nat.two_pow_pos scaling
  rw [scaled, Nat.one_shiftLeft, Nat.shiftRight_eq_div_pow]
  have hdiv := Nat.div_add_mod (freq + (2 ^ scaling - 1)) (2 ^ scaling)
  have hmod := Nat.mod_lt (freq + (2 ^ scaling - 1)) hpos
  omega

theorem scaled_pos {freq : ℕ} (h : 0 < freq) (scaling : ℕ) : 0 < scaled freq scaling := by
  have hle := (scaled_bounds freq scaling).1
  by_contra hzero
  rw [Nat.eq_zero_of_not_pos hzero, Nat.mul_zero] at hle
  omega

theorem scaled_le (freq scaling : ℕ) : scaled freq scaling ≤ freq := by
  cases freq with
  | zero => exact (scaled_zero scaling).le
  | succ freq =>
    have hpos := Nat.two_pow_pos scaling
    have hmul := Nat.le_mul_of_pos_left freq hpos
    rw [scaled, Nat.one_shiftLeft, Nat.shiftRight_eq_div_pow]
    refine Nat.div_le_of_le_mul ?_
    rw [Nat.mul_succ]
    omega

theorem scaled_le_one {freq scaling : ℕ} (h : freq ≤ 2 ^ scaling) : scaled freq scaling ≤ 1 := by
  have hpos := Nat.two_pow_pos scaling
  have hle := (scaled_bounds freq scaling).2
  by_contra htwo
  have := Nat.mul_le_mul_left (2 ^ scaling) (show 2 ≤ scaled freq scaling by omega)
  omega

/-- The sum over the nodes, as a sum over the symbols. -/
theorem sum_huffmanNodes (freqTable : Array ℕ) (n scaling : ℕ) (g : ℕ × ℕ → ℕ) :
    ((huffmanNodes freqTable n scaling).map g).sum =
      ∑ i ∈ range n with 0 < freqTable.getD i 0, g (i, scaled (freqTable.getD i 0) scaling) := by
  rw [huffmanNodes, List.map_map]
  rfl

/-- The lengths of a table. -/
abbrev lens (table : Array ℕ) (i : ℕ) : ℕ := table.getD i 0

section Tables

theorem lens_replicate (n i : ℕ) : lens (.replicate n 0) i = 0 := by
  rw [lens, Array.getD_eq_getD_getElem?, Array.getElem?_replicate]
  split <;> rfl

theorem lens_le_of_any {table : Array ℕ} {L : ℕ}
    (h : (table.any fun len => L < len) = false) (i : ℕ) : lens table i ≤ L := by
  rw [lens, Array.getD_eq_getD_getElem?]
  by_cases hi : i < table.size
  · rw [Array.any_eq_false] at h
    have hle := h i hi
    rw [Array.getElem?_eq_getElem hi, Option.getD_some]
    simpa using hle
  · rw [Array.getElem?_eq_none (by omega)]
    exact Nat.zero_le L

@[simp] theorem getD_setIfInBounds (a : Array ℕ) (i v j : ℕ) :
    (a.setIfInBounds i v).getD j 0 = if i = j ∧ i < a.size then v else a.getD j 0 := by
  simp only [Array.getD_eq_getD_getElem?, Array.getElem?_setIfInBounds]
  split
  · rename_i heq
    subst heq
    split <;> simp_all
  · simp_all

variable {β : Type} (key val : β → ℕ)

theorem size_foldl_set (l : List β) (a : Array ℕ) :
    (l.foldl (fun a p => a.setIfInBounds (key p) (val p)) a).size = a.size := by
  induction l generalizing a with
  | nil => rfl
  | cons p l ih => rw [List.foldl_cons, ih, Array.size_setIfInBounds]

theorem getD_foldl_set_of_notMem {l : List β} (a : Array ℕ) {j : ℕ} (hj : j ∉ l.map key) :
    (l.foldl (fun a p => a.setIfInBounds (key p) (val p)) a).getD j 0 = a.getD j 0 := by
  induction l generalizing a with
  | nil => rfl
  | cons p l ih =>
    rw [List.map_cons, List.mem_cons, not_or] at hj
    rw [List.foldl_cons, ih _ hj.2, getD_setIfInBounds, if_neg (fun h => hj.1 h.1.symm)]

theorem getD_foldl_set {l : List β} (hl : (l.map key).Nodup) (a : Array ℕ) {p : β} (hp : p ∈ l)
    (hlt : key p < a.size) :
    (l.foldl (fun a p => a.setIfInBounds (key p) (val p)) a).getD (key p) 0 = val p := by
  induction l generalizing a with
  | nil => simp at hp
  | cons q l ih =>
    rw [List.map_cons, List.nodup_cons] at hl
    rw [List.foldl_cons]
    cases List.mem_cons.mp hp with
    | inl heq =>
      subst heq
      rw [getD_foldl_set_of_notMem _ _ _ hl.1, getD_setIfInBounds, if_pos ⟨rfl, hlt⟩]
    | inr hmem => exact ih hl.2 _ hmem (by rwa [Array.size_setIfInBounds])

end Tables

/-- What an extraction leaves is what is put down for every leaf. -/
theorem codeLengthExtractor_eq (tree : HuffmanTree ℕ) (d : ℕ) (table : Array ℕ) :
    codeLengthExtractor tree d table =
      (tree.depths d).foldl (fun table p => table.setIfInBounds p.1.1 (max p.2 1)) table := by
  induction tree generalizing d table with
  | leaf id w => rfl
  | node l r hl hr =>
    rw [codeLengthExtractor, HuffmanTree.depths, List.foldl_append, ← hl, ← hr]

section Round

variable {pq : PriorityQueue (HuffmanTree ℕ) HuffmanTree.weight} {freqTable : Array ℕ}
  {n scaling : ℕ} {tree : HuffmanTree ℕ} {table : Array ℕ}

theorem huffmanNodes_ne_nil
    (ht : HuffmanTree.build pq (huffmanNodes freqTable n scaling) = some tree) :
    huffmanNodes freqTable n scaling ≠ [] := by
  intro hnil
  rw [hnil, HuffmanTree.build_nil] at ht
  cases ht

/-- The leaves are the nodes that the round began with. -/
theorem depths_perm (ht : HuffmanTree.build pq (huffmanNodes freqTable n scaling) = some tree) :
    ((tree.depths 0).map Prod.fst).Perm (huffmanNodes freqTable n scaling) := by
  obtain ⟨t, hrun, hleaves⟩ := HuffmanTree.build_leaves pq (huffmanNodes_ne_nil ht)
  obtain rfl : t = tree := Option.some.inj (hrun.symm.trans ht)
  rwa [HuffmanTree.map_fst_depths]

theorem map_fst_huffmanNodes (freqTable : Array ℕ) (n scaling : ℕ) :
    (huffmanNodes freqTable n scaling).map Prod.fst =
      (List.range n).filter fun i => 0 < freqTable.getD i 0 := by
  simp [huffmanNodes, Function.comp_def]

theorem nodup_depths (ht : HuffmanTree.build pq (huffmanNodes freqTable n scaling) = some tree) :
    ((tree.depths 0).map fun p => p.1.1).Nodup := by
  have hperm := (depths_perm ht).map Prod.fst
  rw [map_fst_huffmanNodes, List.map_map] at hperm
  exact hperm.nodup_iff.mpr (List.nodup_range.filter _)

/-- The symbols with a leaf are those that occur. -/
theorem exists_depth_iff (ht : HuffmanTree.build pq (huffmanNodes freqTable n scaling) = some tree)
    (i : ℕ) : i ∈ (tree.depths 0).map (fun p => p.1.1) ↔ i < n ∧ 0 < freqTable.getD i 0 := by
  have hperm := (depths_perm ht).map Prod.fst
  rw [map_fst_huffmanNodes, List.map_map] at hperm
  rw [show (fun p : (ℕ × ℕ) × ℕ => p.1.1) = Prod.fst ∘ Prod.fst from rfl, hperm.mem_iff]
  simp

theorem size_codeLengthExtractor : (codeLengthExtractor tree 0 table).size = table.size := by
  rw [codeLengthExtractor_eq]
  exact size_foldl_set _ _ _ _

theorem getD_codeLengthExtractor (hsize : table.size = n)
    (ht : HuffmanTree.build pq (huffmanNodes freqTable n scaling) = some tree)
    {p : (ℕ × ℕ) × ℕ} (hp : p ∈ tree.depths 0) :
    (codeLengthExtractor tree 0 table).getD p.1.1 0 = max p.2 1 := by
  have hin := (exists_depth_iff ht p.1.1).mp (List.mem_map_of_mem hp)
  rw [codeLengthExtractor_eq]
  exact getD_foldl_set (fun p : (ℕ × ℕ) × ℕ => p.1.1) (fun p => max p.2 1)
    (nodup_depths ht) table hp (by rw [hsize]; exact hin.1)

theorem getD_codeLengthExtractor_of_unused (table : Array ℕ)
    (ht : HuffmanTree.build pq (huffmanNodes freqTable n scaling) = some tree) {i : ℕ}
    (hi : ¬ (i < n ∧ 0 < freqTable.getD i 0)) :
    (codeLengthExtractor tree 0 table).getD i 0 = table.getD i 0 := by
  rw [codeLengthExtractor_eq]
  exact getD_foldl_set_of_notMem (fun p : (ℕ × ℕ) × ℕ => p.1.1) (fun p => max p.2 1)
    table (fun h => hi ((exists_depth_iff ht i).mp h))

/-- A sum over the leaves, as a sum over the symbols with the lengths in the table. -/
theorem sum_depths (hsize : table.size = n)
    (ht : HuffmanTree.build pq (huffmanNodes freqTable n scaling) = some tree)
    (g : ℕ → ℕ → ℕ → ℕ) :
    ((tree.depths 0).map fun p => g p.1.1 p.1.2 (max p.2 1)).sum =
      ∑ i ∈ range n with 0 < freqTable.getD i 0,
        g i (scaled (freqTable.getD i 0) scaling)
          ((codeLengthExtractor tree 0 table).getD i 0) := by
  have hlen : (tree.depths 0).map (fun p => g p.1.1 p.1.2 (max p.2 1)) =
      ((tree.depths 0).map Prod.fst).map fun q =>
        g q.1 q.2 ((codeLengthExtractor tree 0 table).getD q.1 0) := by
    rw [List.map_map]
    refine List.map_congr_left fun p hp => ?_
    rw [Function.comp_apply, getD_codeLengthExtractor hsize ht hp]
  rw [hlen, ((depths_perm ht).map _).sum_eq, sum_huffmanNodes]

variable (hsize : table.size = n)
  (hunused : ∀ i, ¬ (i < n ∧ 0 < freqTable.getD i 0) → lens table i = 0)
  (ht : HuffmanTree.build pq (huffmanNodes freqTable n scaling) = some tree)

include hsize ht

theorem lens_codeLengthExtractor {i : ℕ} (hi : i < n) (hfreq : 0 < freqTable.getD i 0) :
    0 < lens (codeLengthExtractor tree 0 table) i ∧
      lens (codeLengthExtractor tree 0 table) i ≤ max tree.height 1 := by
  obtain ⟨p, hp, rfl⟩ := List.mem_map.mp ((exists_depth_iff ht i).mpr ⟨hi, hfreq⟩)
  have hle := HuffmanTree.depth_le hp
  rw [lens, getD_codeLengthExtractor hsize ht hp]
  omega

/-- The lengths of a round are better than any others of the symbols that occur, for the weights
of the round. -/
theorem codeLengthExtractor_optimal {H : ℕ} {len : ℕ → ℕ}
    (hlen : ∀ i < n, 0 < freqTable.getD i 0 → 0 < len i ∧ len i ≤ H)
    (hkraft : kraftSum len n H ≤ 2 ^ H) :
    ∑ i ∈ range n with 0 < freqTable.getD i 0, scaled (freqTable.getD i 0) scaling *
        lens (codeLengthExtractor tree 0 table) i ≤
      ∑ i ∈ range n with 0 < freqTable.getD i 0, scaled (freqTable.getD i 0) scaling * len i := by
  have hnode : ∀ q ∈ huffmanNodes freqTable n scaling, 0 < len q.1 ∧ len q.1 ≤ H := by
    intro q hq
    have hfst := List.mem_map_of_mem (f := Prod.fst) hq
    rw [map_fst_huffmanNodes] at hfst
    obtain ⟨hlt, hfreq⟩ := List.mem_filter.mp hfst
    exact hlen _ (List.mem_range.mp hlt) (of_decide_eq_true hfreq)
  have hsum := sum_huffmanNodes freqTable n scaling fun q => 2 ^ (H - len q.1)
  have hbest := HuffmanTree.build_optimal_of_pos ht H len
    (fun q hq => (hnode q hq).1) (fun q hq => (hnode q hq).2) (by
      rw [hsum]
      refine (sum_le_sum_of_subset fun i hi => ?_).trans hkraft
      rw [mem_filter] at hi ⊢
      exact ⟨hi.1, (hlen i (mem_range.mp hi.1) hi.2).1⟩)
  rwa [sum_depths hsize ht fun _ w l => w * l, sum_huffmanNodes] at hbest

/-- A tree that is too high has many leaves. -/
theorem fib_le_sum_scaled {L : ℕ} (hL : 0 < L)
    (hlong : (codeLengthExtractor tree 0 table).any (fun len => L < len) = true)
    (hunused : ∀ i, ¬ (i < n ∧ 0 < freqTable.getD i 0) → lens table i = 0) :
    Nat.fib (L + 3) ≤
      ∑ i ∈ range n with 0 < freqTable.getD i 0, scaled (freqTable.getD i 0) scaling := by
  obtain ⟨i, hi, hlt⟩ := Array.any_eq_true.mp hlong
  have hget : lens (codeLengthExtractor tree 0 table) i =
      (codeLengthExtractor tree 0 table)[i] := by
    simp [lens, hi]
  have hhigh : L < tree.height := by
    by_cases hused : i < n ∧ 0 < freqTable.getD i 0
    · have hle := (lens_codeLengthExtractor hsize ht hused.1 hused.2).2
      rw [hget] at hle
      simp only [decide_eq_true_eq] at hlt
      omega
    · have hzero := getD_codeLengthExtractor_of_unused table ht hused
      have hold := hunused i hused
      simp only [lens] at hget hold
      simp only [decide_eq_true_eq] at hlt
      omega
  have hweights : ∀ q ∈ huffmanNodes freqTable n scaling, 0 < q.2 := by
    intro q hq
    simp only [huffmanNodes, List.mem_map, List.mem_filter, decide_eq_true_eq] at hq
    obtain ⟨j, ⟨-, hj⟩, rfl⟩ := hq
    exact scaled_pos hj scaling
  have hfib := HuffmanTree.fib_height_le (huffmanNodes_ne_nil ht) hweights ht
  rw [HuffmanTree.weight_eq_sum tree 0, sum_depths hsize ht fun _ w _ => w] at hfib
  exact (Nat.fib_mono (by omega)).trans hfib

include hunused

/-- Only the symbols that occur have a length. -/
theorem lens_pos_iff {i : ℕ} :
    0 < lens (codeLengthExtractor tree 0 table) i ↔ i < n ∧ 0 < freqTable.getD i 0 := by
  constructor
  · intro hpos
    by_contra hnot
    rw [lens, getD_codeLengthExtractor_of_unused _ ht hnot] at hpos
    exact absurd (hunused i hnot) hpos.ne'
  · exact fun h => (lens_codeLengthExtractor hsize ht h.1 h.2).1

theorem kraftSum_codeLengthExtractor {L : ℕ} (hL : 0 < L)
    (hshort : (codeLengthExtractor tree 0 table).any (fun len => L < len) = false) :
    kraftSum (lens (codeLengthExtractor tree 0 table)) n L ≤ 2 ^ L := by
  have hheight : tree.height ≤ L := by
    obtain ⟨p, hp, heq⟩ := tree.exists_depth 0
    have hget := getD_codeLengthExtractor hsize ht hp
    have hle := lens_le_of_any hshort p.1.1
    rw [lens] at hle
    omega
  have hset : kraftSum (lens (codeLengthExtractor tree 0 table)) n L =
      ∑ i ∈ range n with 0 < freqTable.getD i 0,
        2 ^ (L - lens (codeLengthExtractor tree 0 table) i) := by
    refine sum_congr (filter_congr fun i hi => ?_) fun _ _ => rfl
    rw [lens_pos_iff hsize hunused ht]
    simp [mem_range.mp hi]
  rw [hset, ← sum_depths hsize ht fun _ _ l => 2 ^ (L - l)]
  have hfull := tree.kraft (d := 0) (H := L) (by omega)
  rw [Nat.sub_zero] at hfull
  rw [← hfull]
  exact List.sum_le_sum fun p _ => Nat.pow_le_pow_right Nat.two_pos (by omega)

end Round

/-! ## The table of lengths -/

/-- What holds of the lengths before a round. -/
structure LengthInv (freqTable : Array ℕ) (n L : ℕ) (s : ℕ × Array ℕ) : Prop where
  size_eq : s.2.size = n
  unused : ∀ i, ¬ (i < n ∧ 0 < freqTable.getD i 0) → lens s.2 i = 0
  rescaled : s.1 = 0 ∨ Nat.fib (L + 3) ≤
    ∑ i ∈ range n with 0 < freqTable.getD i 0, scaled (freqTable.getD i 0) (s.1 - 1)

/-- What is made of the frequencies: lengths of codes for just the symbols that occur, which are
the best ones when the last `scaling` bits are rounded up. -/
structure IsLengthTable (freqTable : Array ℕ) (n L scaling : ℕ) (table : Array ℕ) : Prop where
  size_eq : table.size = n
  pos_iff : ∀ i, 0 < lens table i ↔ i < n ∧ 0 < freqTable.getD i 0
  le : ∀ i, lens table i ≤ L
  kraft : kraftSum (lens table) n L ≤ 2 ^ L
  rescaled : scaling = 0 ∨ Nat.fib (L + 3) ≤
    ∑ i ∈ range n with 0 < freqTable.getD i 0, scaled (freqTable.getD i 0) (scaling - 1)
  optimal : ∀ (H : ℕ) (len : ℕ → ℕ),
    (∀ i < n, 0 < freqTable.getD i 0 → 0 < len i ∧ len i ≤ H) → kraftSum len n H ≤ 2 ^ H →
    ∑ i ∈ range n with 0 < freqTable.getD i 0,
        scaled (freqTable.getD i 0) scaling * lens table i ≤
      ∑ i ∈ range n with 0 < freqTable.getD i 0, scaled (freqTable.getD i 0) scaling * len i

section Length

variable (pq : PriorityQueue (HuffmanTree ℕ) HuffmanTree.weight) {freqTable : Array ℕ}
  {n L : ℕ} {s : ℕ × Array ℕ}

/-- Where every weight is `1` the tree is not too high. -/
theorem sum_scaled_le {scaling : ℕ} (hfreq : ∀ i, freqTable.getD i 0 ≤ 2 ^ scaling) :
    ∑ i ∈ range n with 0 < freqTable.getD i 0, scaled (freqTable.getD i 0) scaling ≤ n := by
  have hone : ∑ i ∈ range n with 0 < freqTable.getD i 0, scaled (freqTable.getD i 0) scaling ≤
      ∑ _i ∈ range n, 1 :=
    (sum_le_sum fun i _ => scaled_le_one (hfreq i)).trans (sum_le_sum_of_subset (filter_subset _ _))
  simpa using hone

/-- A round leaves a table that is right, or one for the next round. -/
theorem lengthStep_spec (hL : 0 < L) (h : LengthInv freqTable n L s) :
    (∃ table, lengthStep pq freqTable n L s = .inl (s.1 + 1, table) ∧
      LengthInv freqTable n L (s.1 + 1, table)) ∨
    ∃ table, lengthStep pq freqTable n L s = .inr table ∧
      IsLengthTable freqTable n L s.1 table := by
  cases ht : HuffmanTree.build pq (huffmanNodes freqTable n s.1) with
  | none =>
    have hnone : ∀ i, ¬ (i < n ∧ 0 < freqTable.getD i 0) := by
      intro i hi
      have hmem : i ∈ (huffmanNodes freqTable n s.1).map Prod.fst := by
        rw [map_fst_huffmanNodes]
        simpa using hi
      have hne : huffmanNodes freqTable n s.1 ≠ [] := fun hnil => by simp [hnil] at hmem
      obtain ⟨tree, htree, -⟩ := HuffmanTree.build_leaves pq hne
      rw [ht] at htree
      cases htree
    have hzero : ∀ i, lens s.2 i = 0 := fun i => h.unused i (hnone i)
    have hempty : (range n).filter (fun i => 0 < freqTable.getD i 0) = ∅ :=
      filter_eq_empty_iff.mpr fun i hi hpos => hnone i ⟨mem_range.mp hi, hpos⟩
    refine Or.inr ⟨s.2, by simp [lengthStep, ht], h.size_eq, fun i => ?_, fun i => ?_, ?_,
      h.rescaled, fun H len _ _ => ?_⟩
    · exact iff_of_false (by rw [hzero]; exact lt_irrefl 0) (hnone i)
    · rw [hzero]
      exact Nat.zero_le L
    · rw [kraftSum, filter_eq_empty_iff.mpr fun i _ => by rw [hzero]; exact lt_irrefl 0, sum_empty]
      exact Nat.zero_le _
    · rw [hempty, sum_empty, sum_empty]
  | some tree =>
    cases hany : (codeLengthExtractor tree 0 s.2).any fun len => L < len with
    | true =>
      refine Or.inl ⟨codeLengthExtractor tree 0 s.2, by simp [lengthStep, ht, hany], ?_⟩
      refine ⟨size_codeLengthExtractor.trans h.size_eq, fun i hi => ?_, Or.inr ?_⟩
      · rw [lens, getD_codeLengthExtractor_of_unused _ ht hi]
        exact h.unused i hi
      · exact fib_le_sum_scaled h.size_eq ht hL hany h.unused
    | false =>
      refine Or.inr ⟨codeLengthExtractor tree 0 s.2, by simp [lengthStep, ht, hany], ?_⟩
      exact ⟨size_codeLengthExtractor.trans h.size_eq,
        fun i => lens_pos_iff h.size_eq h.unused ht, lens_le_of_any hany,
        kraftSum_codeLengthExtractor h.size_eq h.unused ht hL hany, h.rescaled,
        fun H len hlen hkraft => codeLengthExtractor_optimal h.size_eq ht hlen hkraft⟩

/-- The table is found, if the frequencies are not too large and the codes may be as long as
the highest tree without weights. -/
theorem zlingMakeLengthTable_spec (hL : 0 < L) (hn : n < Nat.fib (L + 3)) {k : ℕ} (hk : k ≤ 30)
    (hfreq : ∀ i, freqTable.getD i 0 ≤ 2 ^ k) :
    ∃ scaling ≤ k, ∃ table, zlingMakeLengthTable pq freqTable n L = some table ∧
      IsLengthTable freqTable n L scaling table := by
  have hbegin : LengthInv freqTable n L (0, .replicate n 0) :=
    ⟨Array.size_replicate, fun i _ => lens_replicate n i, Or.inl rfl⟩
  have hnext : ∀ s s', LengthInv freqTable n L s ∧ s.1 ≤ k →
      lengthStep pq freqTable n L s = .inl s' →
      (LengthInv freqTable n L s' ∧ s'.1 ≤ k) ∧ k - s'.1 < k - s.1 := by
    intro s s' ⟨hinv, hle⟩ hs
    obtain ⟨table, heq, hinv'⟩ | ⟨table, heq, -⟩ := lengthStep_spec pq hL hinv
    · obtain rfl : (s.1 + 1, table) = s' := Sum.inl.inj (heq.symm.trans hs)
      -- at the last scaling all weights are `1`
      have hlt : s.1 < k := by
        refine lt_of_le_of_ne hle fun hlast => ?_
        have hfib := hinv'.rescaled.resolve_left (Nat.succ_ne_zero _)
        rw [Nat.add_sub_cancel, hlast] at hfib
        have hsum := sum_scaled_le (n := n) hfreq
        omega
      exact ⟨⟨hinv', hlt⟩, by simp only; omega⟩
    · rw [heq] at hs
      cases hs
  have hreturn : ∀ s table, LengthInv freqTable n L s ∧ s.1 ≤ k →
      lengthStep pq freqTable n L s = .inr table →
      ∃ scaling ≤ k, IsLengthTable freqTable n L scaling table := by
    intro s table ⟨hinv, hle⟩ hs
    obtain ⟨t, heq, -⟩ | ⟨t, heq, ht⟩ := lengthStep_spec pq hL hinv
    · rw [heq] at hs
      cases hs
    · obtain rfl : t = table := Sum.inr.inj (heq.symm.trans hs)
      exact ⟨s.1, hle, ht⟩
  obtain ⟨table, ⟨scaling, hle, htable⟩, hrun⟩ :=
    total_loopTo (fun s : ℕ × Array ℕ => k - s.1) hnext hreturn ⟨hbegin, Nat.zero_le k⟩
  exact ⟨scaling, hle, table, hrun 31 (by simp only; omega), htable⟩

end Length

/-- The lengths are those of exactly the symbols that occur and are within the limit, and where
the frequencies are not too many no code of these symbols, of any lengths, is better. -/
theorem zlingMakeLengthTable_optimal (pq : PriorityQueue (HuffmanTree ℕ) HuffmanTree.weight)
    {freqTable : Array ℕ} {n L : ℕ} (hL : 0 < L) (hn : n < Nat.fib (L + 3))
    (hsize : freqTable.size = n) (hsum : ∑ i ∈ range n, freqTable.getD i 0 ≤ 2 ^ 30) :
    ∃ table, zlingMakeLengthTable pq freqTable n L = some table ∧
      (∀ i, 0 < table.getD i 0 ↔ i < n ∧ 0 < freqTable.getD i 0) ∧ (∀ i, table.getD i 0 ≤ L) ∧
      kraftSum (lens table) n L ≤ 2 ^ L ∧
      (∑ i ∈ range n, freqTable.getD i 0 < Nat.fib (L + 3) →
        ∀ (H : ℕ) (len : ℕ → ℕ),
          (∀ i < n, 0 < freqTable.getD i 0 → 0 < len i ∧ len i ≤ H) →
          kraftSum len n H ≤ 2 ^ H →
          ∑ i ∈ range n, freqTable.getD i 0 * table.getD i 0 ≤
            ∑ i ∈ range n, freqTable.getD i 0 * len i) := by
  have hfreq : ∀ i, freqTable.getD i 0 ≤ 2 ^ 30 := by
    intro i
    by_cases hi : i < n
    · exact (single_le_sum (f := fun i => freqTable.getD i 0) (fun _ _ => Nat.zero_le _)
        (mem_range.mpr hi)).trans hsum
    · rw [Array.getD_eq_getD_getElem?, Array.getElem?_eq_none (by omega)]
      exact Nat.zero_le _
  have hused : ∀ g : ℕ → ℕ, ∑ i ∈ range n with 0 < freqTable.getD i 0, freqTable.getD i 0 * g i =
      ∑ i ∈ range n, freqTable.getD i 0 * g i := by
    intro g
    refine sum_filter_of_ne fun i _ hne => Nat.pos_of_ne_zero fun hzero => hne ?_
    rw [hzero, Nat.zero_mul]
  obtain ⟨scaling, -, table, hrun, htable⟩ := zlingMakeLengthTable_spec pq hL hn le_rfl hfreq
  refine ⟨table, hrun, htable.pos_iff, htable.le, htable.kraft, fun hfew H len hlen hkraft => ?_⟩
  -- so few frequencies are not rounded
  have hzero : scaling = 0 := by
    refine htable.rescaled.resolve_right fun hmany => ?_
    have hle : ∑ i ∈ range n with 0 < freqTable.getD i 0,
        scaled (freqTable.getD i 0) (scaling - 1) ≤ ∑ i ∈ range n, freqTable.getD i 0 := by
      exact (sum_le_sum_of_subset (filter_subset _ _)).trans
        (sum_le_sum fun i _ => scaled_le _ _)
    omega
  have hbest := htable.optimal H len hlen hkraft
  simp only [hzero, scaled_by_zero] at hbest
  rw [hused, hused] at hbest
  exact hbest

/-- Three symbols, and one that does not occur. -/
theorem zlingMakeLengthTable_optimal_three :
    ∃ table, zlingMakeLengthTable (.sorted _) #[3, 0, 1, 1] 4 3 = some table ∧
      ∀ len : ℕ → ℕ, (∀ i < 4, i ≠ 1 → 0 < len i ∧ len i ≤ 2) → kraftSum len 4 2 ≤ 2 ^ 2 →
        3 * table.getD 0 0 + 1 * table.getD 2 0 + 1 * table.getD 3 0 ≤
          3 * len 0 + 1 * len 2 + 1 * len 3 := by
  obtain ⟨table, hrun, -, -, -, hbest⟩ := zlingMakeLengthTable_optimal (.sorted _)
    (show 0 < 3 by decide) (show 4 < Nat.fib (3 + 3) by decide)
    (show (#[3, 0, 1, 1] : Array ℕ).size = 4 from rfl) (by decide)
  refine ⟨table, hrun, fun len hlen hkraft => ?_⟩
  have hused : ∀ i < 4, 0 < (#[3, 0, 1, 1] : Array ℕ).getD i 0 → i ≠ 1 := by decide
  have hsum := hbest (by decide) 2 len (fun i hi hfreq => hlen i hi (hused i hi hfreq)) hkraft
  simpa [sum_range_succ] using hsum

/-! ## What the codes cost -/

section Cost

variable {freqTable : Array ℕ} {n L scaling : ℕ} {table : Array ℕ}

/-- A code that is shorter than `M` takes as much of the space as is saved. -/
theorem sub_mul_le {l L M : ℕ} (hl : l ≤ L) :
    (M - l) * 2 ^ L ≤ 2 ^ (M - 1) * 2 ^ (L - l) := by
  cases hk : M - l with
  | zero => rw [Nat.zero_mul]; exact Nat.zero_le _
  | succ k =>
    have hlt : k + 1 ≤ 2 ^ k := Nat.lt_two_pow_self
    have hpow : 2 ^ (M - 1) * 2 ^ (L - l) = 2 ^ k * 2 ^ L := by
      rw [← Nat.pow_add, ← Nat.pow_add, show M - 1 + (L - l) = k + L by omega]
    rw [hpow]
    exact Nat.mul_le_mul_right _ hlt

/-- How much shorter than `len` the codes can be, all together. -/
theorem IsLengthTable.sum_sub_le (h : IsLengthTable freqTable n L scaling table) (M : ℕ)
    (len : ℕ → ℕ) :
    ∑ i ∈ range n with 0 < freqTable.getD i 0, (len i - lens table i) ≤
      2 ^ (M - 1) + ∑ i ∈ range n, (len i - M) := by
  have hset : ∑ i ∈ range n with 0 < freqTable.getD i 0, 2 ^ (L - lens table i) ≤ 2 ^ L := by
    refine le_trans (le_of_eq ?_) h.kraft
    refine sum_congr (filter_congr fun i hi => ?_) fun _ _ => rfl
    rw [h.pos_iff]
    simp [mem_range.mp hi]
  have hone : ∀ i, (len i - lens table i) * 2 ^ L ≤
      2 ^ (M - 1) * 2 ^ (L - lens table i) + (len i - M) * 2 ^ L := by
    intro i
    refine le_trans ?_ (Nat.add_le_add_right (sub_mul_le (h.le i)) _)
    rw [← Nat.add_mul]
    exact Nat.mul_le_mul_right _ (by omega)
  refine Nat.le_of_mul_le_mul_right ?_ (Nat.two_pow_pos L)
  calc (∑ i ∈ range n with 0 < freqTable.getD i 0, (len i - lens table i)) * 2 ^ L
      = ∑ i ∈ range n with 0 < freqTable.getD i 0, (len i - lens table i) * 2 ^ L := sum_mul _ _ _
    _ ≤ ∑ i ∈ range n with 0 < freqTable.getD i 0,
          (2 ^ (M - 1) * 2 ^ (L - lens table i) + (len i - M) * 2 ^ L) :=
        sum_le_sum fun i _ => hone i
    _ = 2 ^ (M - 1) * ∑ i ∈ range n with 0 < freqTable.getD i 0, 2 ^ (L - lens table i) +
          (∑ i ∈ range n with 0 < freqTable.getD i 0, (len i - M)) * 2 ^ L := by
        rw [sum_add_distrib, ← mul_sum, ← sum_mul]
    _ ≤ 2 ^ (M - 1) * 2 ^ L + (∑ i ∈ range n, (len i - M)) * 2 ^ L :=
        Nat.add_le_add (Nat.mul_le_mul_left _ hset)
          (Nat.mul_le_mul_right _ (sum_le_sum_of_subset (filter_subset _ _)))
    _ = (2 ^ (M - 1) + ∑ i ∈ range n, (len i - M)) * 2 ^ L := (Nat.add_mul _ _ _).symm

/-- The codes cost little more than any others. -/
theorem IsLengthTable.cost_le (h : IsLengthTable freqTable n L scaling table) {H : ℕ}
    (len : ℕ → ℕ) (hlen : ∀ i < n, 0 < freqTable.getD i 0 → 0 < len i ∧ len i ≤ H)
    (hkraft : kraftSum len n H ≤ 2 ^ H) :
    ∑ i ∈ range n with 0 < freqTable.getD i 0, freqTable.getD i 0 * lens table i ≤
      ∑ i ∈ range n with 0 < freqTable.getD i 0, freqTable.getD i 0 * len i +
        (2 ^ scaling - 1) *
          ∑ i ∈ range n with 0 < freqTable.getD i 0, (len i - lens table i) := by
  -- what is added to a frequency when it is rounded up
  let extra := fun i => 2 ^ scaling * scaled (freqTable.getD i 0) scaling - freqTable.getD i 0
  have hextra : ∀ i, 2 ^ scaling * scaled (freqTable.getD i 0) scaling =
      freqTable.getD i 0 + extra i := fun i =>
    (Nat.add_sub_of_le (scaled_bounds (freqTable.getD i 0) scaling).1).symm
  have hsmall : ∀ i, extra i ≤ 2 ^ scaling - 1 := fun i =>
    Nat.sub_le_iff_le_add'.mpr (scaled_bounds (freqTable.getD i 0) scaling).2
  have hrounded : ∀ g : ℕ → ℕ, 2 ^ scaling *
      ∑ i ∈ range n with 0 < freqTable.getD i 0, scaled (freqTable.getD i 0) scaling * g i =
      ∑ i ∈ range n with 0 < freqTable.getD i 0, freqTable.getD i 0 * g i +
        ∑ i ∈ range n with 0 < freqTable.getD i 0, extra i * g i := by
    intro g
    rw [mul_sum, ← sum_add_distrib]
    exact sum_congr rfl fun i _ => by rw [← Nat.mul_assoc, hextra, Nat.add_mul]
  have hbest := Nat.mul_le_mul_left (2 ^ scaling) (h.optimal H len hlen hkraft)
  rw [hrounded, hrounded] at hbest
  have hone : ∑ i ∈ range n with 0 < freqTable.getD i 0, extra i * len i ≤
      ∑ i ∈ range n with 0 < freqTable.getD i 0, extra i * lens table i +
        (2 ^ scaling - 1) *
          ∑ i ∈ range n with 0 < freqTable.getD i 0, (len i - lens table i) := by
    rw [mul_sum, ← sum_add_distrib]
    refine sum_le_sum fun i _ => ?_
    calc extra i * len i ≤ extra i * (lens table i + (len i - lens table i)) :=
          Nat.mul_le_mul_left _ (by omega)
      _ = extra i * lens table i + extra i * (len i - lens table i) := Nat.mul_add _ _ _
      _ ≤ extra i * lens table i + (2 ^ scaling - 1) * (len i - lens table i) :=
          Nat.add_le_add_left (Nat.mul_le_mul_right _ (hsmall i)) _
  omega

/-- Only where there are many symbols the frequencies are rounded. -/
theorem IsLengthTable.rescaled_le (h : IsLengthTable freqTable n L scaling table) :
    (2 ^ scaling - 1) * (Nat.fib (L + 3) - n) ≤
      2 * ∑ i ∈ range n with 0 < freqTable.getD i 0, freqTable.getD i 0 := by
  cases scaling with
  | zero => simp
  | succ s =>
    have hfib := h.rescaled.resolve_left (Nat.succ_ne_zero s)
    rw [Nat.add_sub_cancel] at hfib
    have hrounded : 2 ^ s * ∑ i ∈ range n with 0 < freqTable.getD i 0,
        scaled (freqTable.getD i 0) s ≤
        ∑ i ∈ range n with 0 < freqTable.getD i 0, freqTable.getD i 0 + 2 ^ s * n := by
      have hcount : ∑ _i ∈ range n with 0 < freqTable.getD _i 0, 2 ^ s ≤ 2 ^ s * n := by
        rw [sum_const, smul_eq_mul, Nat.mul_comm]
        exact Nat.mul_le_mul_left _ ((card_filter_le _ _).trans (card_range n).le)
      refine le_trans ?_ (Nat.add_le_add_left hcount _)
      rw [mul_sum, ← sum_add_distrib]
      exact sum_le_sum fun i _ =>
        (scaled_bounds _ s).2.trans (Nat.add_le_add_left (Nat.sub_le _ _) _)
    have hdiff : 2 ^ s * (Nat.fib (L + 3) - n) ≤
        ∑ i ∈ range n with 0 < freqTable.getD i 0, freqTable.getD i 0 := by
      have hle := Nat.mul_le_mul_left (2 ^ s) hfib
      rw [Nat.mul_sub]
      omega
    calc (2 ^ (s + 1) - 1) * (Nat.fib (L + 3) - n)
        ≤ 2 ^ (s + 1) * (Nat.fib (L + 3) - n) := Nat.mul_le_mul_right _ (Nat.sub_le _ _)
      _ = 2 * (2 ^ s * (Nat.fib (L + 3) - n)) := by rw [Nat.pow_succ']; exact Nat.mul_assoc _ _ _
      _ ≤ _ := Nat.mul_le_mul_left 2 hdiff

end Cost

/-! ## The table of codes -/

section Codes

variable {lengthTable : Array ℕ} {n L : ℕ}

/-- What holds after the symbols below `i` when the codes of `c` bits are given out: the codes
that come before are in the table, and the next one is known. -/
structure Assigned (lengthTable : Array ℕ) (n L c i : ℕ) (s : ℕ × Array ℕ) : Prop where
  size_eq : s.2.size = n
  next : s.1 * 2 ^ (L - c) = codeStart (lens lengthTable) n L c i
  codes : ∀ j < n, CodeBefore (lens lengthTable) c i j →
    lens s.2 j = canonicalCode (lens lengthTable) n L j
  others : ∀ j, ¬ CodeBefore (lens lengthTable) c i j → lens s.2 j = 0

theorem assigned_begin (lengthTable : Array ℕ) (n L : ℕ) :
    Assigned lengthTable n L 1 0 (0, .replicate n 0) := by
  refine ⟨Array.size_replicate, by rw [codeStart_one, Nat.zero_mul], fun j _ hj => ?_,
    fun j _ => lens_replicate n j⟩
  obtain ⟨hpos, hlt | ⟨-, hlt⟩⟩ := hj <;> omega

theorem codeBefore_succ {len : ℕ → ℕ} {c : ℕ} (hc : 0 < c) (i j : ℕ) :
    CodeBefore len c (i + 1) j ↔ CodeBefore len c i j ∨ j = i ∧ len i = c := by
  simp only [CodeBefore]
  by_cases hj : j = i
  · subst hj
    omega
  · omega

/-- A symbol gets its code, if it is one of those of the length. -/
theorem Assigned.assignCode {c i : ℕ} {s : ℕ × Array ℕ}
    (hkraft : kraftSum (lens lengthTable) n L ≤ 2 ^ L) (hL : L < 16) (hi : i < n) (hc : 0 < c)
    (hcL : c ≤ L) (h : Assigned lengthTable n L c i s) :
    Assigned lengthTable n L c (i + 1) (assignCode lengthTable c s i) := by
  have hsucc := codeStart_succ (lens lengthTable) L hi hc
  by_cases heq : lengthTable.getD i 0 = c
  · have hlen : lens lengthTable i = c := heq
    have hcode : canonicalCode (lens lengthTable) n L i = s.1 := by
      rw [canonicalCode, hlen, ← h.next]
      exact Nat.mul_div_cancel _ (Nat.two_pow_pos _)
    have hsmall : s.1 < 65536 := by
      have hlt := canonicalCode_lt hkraft hi (hlen ▸ hc) (hlen ▸ hcL)
      rw [hcode, hlen] at hlt
      exact hlt.trans_le (Nat.pow_le_pow_right Nat.two_pos (show c ≤ 16 by omega))
    rw [Lzbench.assignCode, if_pos heq]
    refine ⟨(Array.size_setIfInBounds).trans h.size_eq, ?_, fun j hj hbefore => ?_, fun j hj => ?_⟩
    · rw [hsucc, if_pos hlen, ← h.next, Nat.add_mul, Nat.one_mul]
    · rw [lens, getD_setIfInBounds]
      split
      · rename_i hset
        rw [← hset.1, hcode, Nat.mod_eq_of_lt hsmall]
      · rename_i hset
        rw [h.size_eq] at hset
        refine h.codes j hj (((codeBefore_succ hc i j).mp hbefore).resolve_right fun hlast => ?_)
        exact hset ⟨hlast.1.symm, hi⟩
    · rw [codeBefore_succ hc, not_or] at hj
      rw [lens, getD_setIfInBounds, if_neg fun hset => hj.2 ⟨hset.1.symm, hlen⟩]
      exact h.others j hj.1
  · have hsame : ∀ j, CodeBefore (lens lengthTable) c (i + 1) j ↔
        CodeBefore (lens lengthTable) c i j := by
      intro j
      rw [codeBefore_succ hc, or_iff_left fun hlast => heq hlast.2]
    rw [Lzbench.assignCode, if_neg heq]
    refine ⟨h.size_eq, ?_, fun j hj hbefore => h.codes j hj ((hsame j).mp hbefore),
      fun j hj => h.others j fun hbefore => hj ((hsame j).mpr hbefore)⟩
    rw [hsucc, if_neg heq, Nat.add_zero]
    exact h.next

/-- All symbols of a length get their codes. -/
theorem Assigned.foldl {c : ℕ} {s : ℕ × Array ℕ}
    (hkraft : kraftSum (lens lengthTable) n L ≤ 2 ^ L) (hL : L < 16) (hc : 0 < c) (hcL : c ≤ L)
    (h : Assigned lengthTable n L c 0 s) {i : ℕ} (hi : i ≤ n) :
    Assigned lengthTable n L c i ((List.range i).foldl (Lzbench.assignCode lengthTable c) s) := by
  induction i with
  | zero => exact h
  | succ i ih =>
    rw [List.range_succ, List.foldl_append]
    exact (ih (by omega)).assignCode hkraft hL (by omega) hc hcL

/-- The codes of the first lengths are given out. -/
theorem assigned_foldl (hkraft : kraftSum (lens lengthTable) n L ≤ 2 ^ L) (hL : L < 16) {c : ℕ}
    (hcL : c < L) : Assigned lengthTable n L (c + 1) 0
      ((List.range' 1 c).foldl (assignCodes lengthTable n) (0, .replicate n 0)) := by
  induction c with
  | zero => exact assigned_begin lengthTable n L
  | succ c ih =>
    have h := (ih (by omega)).foldl hkraft hL (Nat.succ_pos c) (by omega) le_rfl
    rw [List.range'_concat, List.foldl_append, Nat.one_mul, Nat.add_comm 1 c]
    have hnext := h.next
    rw [show L - (c + 1) = (L - (c + 1 + 1)) + 1 by omega, Nat.pow_succ', ← Nat.mul_assoc] at hnext
    refine ⟨h.size_eq, hnext.trans (codeStart_next _).symm, fun j hj hbefore => h.codes j hj ?_,
      fun j hj => h.others j fun hbefore => hj ?_⟩
    · simp only [CodeBefore] at hbefore ⊢
      omega
    · simp only [CodeBefore] at hbefore ⊢
      omega

/-- The codes, before their bits are reversed. -/
theorem assignCodes_spec (hkraft : kraftSum (lens lengthTable) n L ≤ 2 ^ L) (hL : L < 16)
    (hpos : 0 < L) :
    let table := ((List.range' 1 L).foldl (assignCodes lengthTable n) (0, .replicate n 0)).2
    table.size = n ∧ ∀ j < n, 0 < lens lengthTable j → lens lengthTable j ≤ L →
      lens table j = canonicalCode (lens lengthTable) n L j := by
  obtain ⟨c, rfl⟩ := Nat.exists_eq_succ_of_ne_zero hpos.ne'
  have h := (assigned_foldl hkraft hL (Nat.lt_succ_self c)).foldl hkraft hL (Nat.succ_pos c)
    le_rfl le_rfl
  rw [Nat.succ_eq_add_one, List.range'_concat, List.foldl_append, Nat.one_mul, Nat.add_comm 1 c]
  exact ⟨h.size_eq, fun j hj hlen hle => h.codes j hj ⟨hlen, by omega⟩⟩

theorem testBit_reverseCode_low (code : ℕ) {i : ℕ} (hi : i < 16) :
    (reverseCode code 16).testBit i = code.testBit (15 - i) := by
  simp only [reverseCode, Nat.sub_self, Nat.shiftRight_zero, Nat.testBit_or,
    Nat.testBit_shiftRight, Nat.testBit_shiftLeft, Nat.testBit_and]
  interval_cases i <;> simp [Nat.testBit]

theorem reverseCode_lt (code : ℕ) : reverseCode code 16 < 2 ^ 16 := by
  simp only [reverseCode, Nat.sub_self, Nat.shiftRight_zero]
  refine Nat.or_lt_two_pow ?_ ?_
  · rw [Nat.shiftRight_eq_div_pow]
    exact (Nat.div_le_self _ _).trans_lt (Nat.and_le_right.trans_lt (by decide))
  · rw [Nat.shiftLeft_eq]
    exact (Nat.mul_le_mul_right _ Nat.and_le_right).trans_lt (by decide)

/-- The bits of a code are reversed. -/
theorem testBit_reverseCode (code : ℕ) {len : ℕ} (hlen : len ≤ 16) (k : ℕ) :
    (reverseCode code len).testBit k = (decide (k < len) && code.testBit (len - 1 - k)) := by
  have hshift : reverseCode code len = reverseCode code 16 >>> (16 - len) := by
    simp [reverseCode]
  rw [hshift, Nat.testBit_shiftRight]
  by_cases hk : k < len
  · rw [testBit_reverseCode_low code (by omega), decide_eq_true hk, Bool.true_and]
    congr 1
    omega
  · rw [decide_eq_false hk, Bool.false_and]
    exact Nat.testBit_lt_two_pow ((reverseCode_lt code).trans_le
      (Nat.pow_le_pow_right Nat.two_pos (by omega)))

/-- The codes of the table. -/
structure IsEncodeTable (lengthTable : Array ℕ) (n L : ℕ) (encodeTable : Array ℕ) : Prop where
  testBit : ∀ j < n, 0 < lens lengthTable j → lens lengthTable j ≤ L → ∀ k,
    (encodeTable.getD j 0).testBit k = (decide (k < lens lengthTable j) &&
      (canonicalCode (lens lengthTable) n L j).testBit (lens lengthTable j - 1 - k))

theorem zlingMakeEncodeTable_spec (hkraft : kraftSum (lens lengthTable) n L ≤ 2 ^ L) (hL : L < 16)
    (hpos : 0 < L) :
    IsEncodeTable lengthTable n L (zlingMakeEncodeTable lengthTable n L) := by
  obtain ⟨hsize, hcodes⟩ := assignCodes_spec hkraft hL hpos
  refine ⟨fun j hj hlen hle k => ?_⟩
  have hcode := hcodes j hj hlen hle
  rw [lens, Array.getD_eq_getD_getElem?, Array.getElem?_eq_getElem (by rwa [hsize]),
    Option.getD_some] at hcode
  rw [zlingMakeEncodeTable, Array.getD_eq_getD_getElem?, Array.getElem?_mapIdx,
    Array.getElem?_eq_getElem (by rwa [hsize]), Option.map_some, Option.getD_some, hcode]
  exact testBit_reverseCode _ (hle.trans hL.le) k

/-! ## The table of symbols -/

theorem size_foldl_setAll (l : List ℕ) (c : ℕ) (table : Array ℕ) :
    (l.foldl (fun table i => table.setIfInBounds i c) table).size = table.size :=
  size_foldl_set (fun i => i) (fun _ => c) l table

theorem getD_foldl_setAll (l : List ℕ) (c : ℕ) (table : Array ℕ) (x : ℕ) :
    lens (l.foldl (fun table i => table.setIfInBounds i c) table) x =
      if x ∈ l ∧ x < table.size then c else lens table x := by
  induction l generalizing table with
  | nil => simp
  | cons i l ih =>
    rw [List.foldl_cons, ih, Array.size_setIfInBounds, lens, getD_setIfInBounds]
    simp only [List.mem_cons]
    by_cases hx : x ∈ l ∧ x < table.size
    · rw [if_pos hx, if_pos ⟨Or.inr hx.1, hx.2⟩]
    · rw [if_neg hx]
      by_cases hi : i = x ∧ i < table.size
      · rw [if_pos hi, if_pos ⟨Or.inl hi.1.symm, hi.1 ▸ hi.2⟩]
      · rw [if_neg hi, if_neg]
        rintro ⟨heq | hmem, hlt⟩
        · exact hi ⟨heq.symm, heq ▸ hlt⟩
        · exact hx ⟨hmem, hlt⟩

/-- The places that are filled are those that end in the code. -/
theorem mem_fillFrom {start l M x : ℕ} (hstart : start < 2 ^ l) :
    x ∈ List.range' start ((2 ^ M - start + 2 ^ l - 1) / 2 ^ l) (2 ^ l) ↔
      x < 2 ^ M ∧ x % 2 ^ l = start := by
  have hpos := Nat.two_pow_pos l
  rw [List.mem_range']
  constructor
  · rintro ⟨i, hi, rfl⟩
    rw [Nat.lt_div_iff_mul_lt hpos] at hi
    rw [Nat.mul_comm i] at hi
    refine ⟨by omega, ?_⟩
    rw [Nat.add_mul_mod_self_left]
    exact Nat.mod_eq_of_lt hstart
  · rintro ⟨hx, hmod⟩
    have hdiv := Nat.div_add_mod x (2 ^ l)
    refine ⟨x / 2 ^ l, ?_, by omega⟩
    rw [Nat.lt_div_iff_mul_lt hpos, Nat.mul_comm]
    omega

/-- A symbol whose code of at most `M` bits is at the end of `x`. -/
def Matches (lengthTable encodeTable : Array ℕ) (M x c : ℕ) : Prop :=
  (0 < lens lengthTable c ∧ lens lengthTable c ≤ M) ∧
    x % 2 ^ lens lengthTable c = lens encodeTable c

instance (lengthTable encodeTable : Array ℕ) (M x c : ℕ) :
    Decidable (Matches lengthTable encodeTable M x c) :=
  inferInstanceAs (Decidable (_ ∧ _))

/-- A symbol is put down where its code is. -/
def decodeStep (lengthTable encodeTable : Array ℕ) (M : ℕ) (table : Array ℕ) (c : ℕ) : Array ℕ :=
  if 0 < lens lengthTable c ∧ lens lengthTable c ≤ M then
    fillFrom (lens encodeTable c) (1 <<< M) (1 <<< lens lengthTable c) c table
  else table

variable {encodeTable : Array ℕ} {M x : ℕ}

theorem IsEncodeTable.lt (h : IsEncodeTable lengthTable n L encodeTable) {j : ℕ} (hj : j < n)
    (hpos : 0 < lens lengthTable j) (hle : lens lengthTable j ≤ L) :
    lens encodeTable j < 2 ^ lens lengthTable j := by
  refine Nat.lt_pow_two_of_testBit _ fun k hk => ?_
  rw [lens, h.testBit j hj hpos hle, decide_eq_false (not_lt.mpr hk), Bool.false_and]

theorem decodeStep_spec (h : IsEncodeTable lengthTable n L encodeTable) (hM : M ≤ L)
    {table : Array ℕ} (hsize : table.size = 2 ^ M) (hx : x < 2 ^ M) {c : ℕ} (hc : c < n) :
    (decodeStep lengthTable encodeTable M table c).size = 2 ^ M ∧
      lens (decodeStep lengthTable encodeTable M table c) x =
        if Matches lengthTable encodeTable M x c then c else lens table x := by
  rw [decodeStep]
  by_cases hlen : 0 < lens lengthTable c ∧ lens lengthTable c ≤ M
  · have hlt := h.lt hc hlen.1 (hlen.2.trans hM)
    rw [if_pos hlen, fillFrom, Nat.one_shiftLeft, Nat.one_shiftLeft, size_foldl_setAll,
      getD_foldl_setAll]
    refine ⟨hsize, if_congr ?_ rfl rfl⟩
    rw [mem_fillFrom hlt, hsize, Matches]
    exact ⟨fun hin => ⟨hlen, hin.1.2⟩, fun hin => ⟨⟨hx, hin.2⟩, hx⟩⟩
  · rw [if_neg hlen, if_neg fun hin => hlen hin.1]
    exact ⟨hsize, rfl⟩

/-- The entry for `x` is the last symbol that matches. -/
theorem foldl_decodeStep (h : IsEncodeTable lengthTable n L encodeTable) (hM : M ≤ L)
    (hx : x < 2 ^ M) {i : ℕ} (hi : i ≤ n) :
    let table := (List.range i).foldl (decodeStep lengthTable encodeTable M)
      (.replicate (1 <<< M) 65535)
    table.size = 2 ^ M ∧
      ((∀ c < i, ¬ Matches lengthTable encodeTable M x c) → lens table x = 65535) ∧
      ∀ j < i, Matches lengthTable encodeTable M x j →
        (∀ c < i, Matches lengthTable encodeTable M x c → c = j) → lens table x = j := by
  induction i with
  | zero =>
    refine ⟨by simp [Nat.one_shiftLeft], fun _ => ?_, fun j hj => absurd hj (Nat.not_lt_zero j)⟩
    simp [lens, Array.getD_eq_getD_getElem?, Nat.one_shiftLeft, hx]
  | succ i ih =>
    obtain ⟨hsize, hnone, hone⟩ := ih (by omega)
    rw [List.range_succ, List.foldl_append]
    obtain ⟨hsize', hget⟩ := decodeStep_spec h hM hsize hx (show i < n by omega)
    refine ⟨hsize', fun hno => ?_, fun j hj hmatch huniq => ?_⟩
    · rw [List.foldl_cons, List.foldl_nil, hget, if_neg (hno i (by omega))]
      exact hnone fun c hc => hno c (by omega)
    · rw [List.foldl_cons, List.foldl_nil, hget]
      split
      · rename_i hlast
        exact huniq i (by omega) hlast
      · rename_i hlast
        have hji : j ≠ i := fun heq => hlast (heq ▸ hmatch)
        exact hone j (by omega) hmatch fun c hc => huniq c (by omega)

theorem zlingMakeDecodeTable_eq (lengthTable encodeTable : Array ℕ) (n M : ℕ) :
    zlingMakeDecodeTable lengthTable encodeTable n M =
      (List.range n).foldl (decodeStep lengthTable encodeTable M) (.replicate (1 <<< M) 65535) :=
  rfl

/-- A match is read as the code. -/
theorem Matches.bits (h : IsEncodeTable lengthTable n L encodeTable) (hM : M ≤ L) {c : ℕ}
    (hc : c < n) (hmatch : Matches lengthTable encodeTable M x c) {k : ℕ}
    (hk : k < lens lengthTable c) :
    x.testBit k =
      (canonicalCode (lens lengthTable) n L c).testBit (lens lengthTable c - 1 - k) := by
  have hbit := congrArg (fun v => Nat.testBit v k) hmatch.2
  rw [Nat.testBit_mod_two_pow, decide_eq_true hk, Bool.true_and, lens,
    h.testBit c hc hmatch.1.1 (hmatch.1.2.trans hM), decide_eq_true hk, Bool.true_and] at hbit
  exact hbit

section Lookup

variable (h : IsEncodeTable lengthTable n L encodeTable)
  (hkraft : kraftSum (lens lengthTable) n L ≤ 2 ^ L) (hM : M ≤ L) (hx : x < 2 ^ M) {f : ℕ → Bool}
  (hbits : ∀ k < M, x.testBit k = f k) {j : ℕ} (hj : j < n) (hpos : 0 < lens lengthTable j)
  (hle : lens lengthTable j ≤ L)
  (hcode : ∀ k < lens lengthTable j, f k = (lens encodeTable j).testBit k)

include h hkraft hM hbits hj hpos hle hcode

/-- Only the symbol that comes next can match. -/
theorem matches_unique {c : ℕ} (hc : c < n) (hmatch : Matches lengthTable encodeTable M x c) :
    c = j := by
  refine canonicalCode_unique (f := f) hkraft hc hj hmatch.1.1 hpos (hmatch.1.2.trans hM) hle
    (fun k hk => ?_) fun k hk => ?_
  · rw [← hbits k (hk.trans_le hmatch.1.2), hmatch.bits h hM hc hk]
  · rw [hcode k hk, lens, h.testBit j hj hpos hle, decide_eq_true hk, Bool.true_and]

include hx

/-- A code that is not too long is found. -/
theorem decodeTable_of_le (hshort : lens lengthTable j ≤ M) :
    lens (zlingMakeDecodeTable lengthTable encodeTable n M) x = j := by
  rw [zlingMakeDecodeTable_eq]
  refine (foldl_decodeStep h hM hx le_rfl).2.2 j hj ⟨⟨hpos, hshort⟩, ?_⟩ fun c hc hmatch =>
    matches_unique h hkraft hM hbits hj hpos hle hcode hc hmatch
  refine Nat.eq_of_testBit_eq fun k => ?_
  rw [Nat.testBit_mod_two_pow]
  by_cases hk : k < lens lengthTable j
  · rw [decide_eq_true hk, Bool.true_and, hbits k (hk.trans_le hshort), hcode k hk]
  · rw [decide_eq_false hk, Bool.false_and, lens, h.testBit j hj hpos hle, decide_eq_false hk,
      Bool.false_and]

/-- Nothing is found where the code is too long. -/
theorem decodeTable_of_lt (hlong : M < lens lengthTable j) :
    lens (zlingMakeDecodeTable lengthTable encodeTable n M) x = 65535 := by
  rw [zlingMakeDecodeTable_eq]
  refine (foldl_decodeStep h hM hx le_rfl).2.1 fun c hc hmatch => ?_
  have heq := matches_unique h hkraft hM hbits hj hpos hle hcode hc hmatch
  have hshort := hmatch.1.2
  rw [heq] at hshort
  omega

end Lookup

end Codes

/-- The table finds the symbol whose code comes next, or nothing where the code is longer than
what is looked up. -/
theorem zlingMakeDecodeTable_lookup {lengthTable : Array ℕ} {n L M : ℕ}
    (hkraft : kraftSum (lens lengthTable) n L ≤ 2 ^ L) (hpos : 0 < L) (hL : L < 16) (hM : M ≤ L)
    {j : ℕ} (hj : j < n) (hused : 0 < lens lengthTable j) (hle : lens lengthTable j ≤ L) {x : ℕ}
    (hx : x < 2 ^ M)
    (hcode : ∀ k < min M (lens lengthTable j), x.testBit k =
      ((zlingMakeEncodeTable lengthTable n L).getD j 0).testBit k) :
    (zlingMakeDecodeTable lengthTable (zlingMakeEncodeTable lengthTable n L) n M).getD x 0 =
      if lens lengthTable j ≤ M then j else 65535 := by
  have htable := zlingMakeEncodeTable_spec hkraft hL hpos
  -- the bits of `x` and then those of the code
  let f : ℕ → Bool := fun k =>
    if k < M then x.testBit k else ((zlingMakeEncodeTable lengthTable n L).getD j 0).testBit k
  have hbits : ∀ k < M, x.testBit k = f k := fun k hk => (if_pos hk).symm
  have hnext : ∀ k < lens lengthTable j, f k =
      (lens (zlingMakeEncodeTable lengthTable n L) j).testBit k := by
    intro k hk
    by_cases hkM : k < M
    · exact (if_pos hkM).trans (hcode k (lt_min hkM hk))
    · exact if_neg hkM
  split
  · rename_i hshort
    exact decodeTable_of_le htable hkraft hM hx hbits hj hused hle hnext hshort
  · rename_i hlong
    exact decodeTable_of_lt htable hkraft hM hx hbits hj hused hle hnext (not_le.mp hlong)

/-- Four symbols, with a code of three bits looked up by two of them. -/
theorem zlingMakeDecodeTable_lookup_four :
    (zlingMakeDecodeTable #[1, 2, 3, 3] (zlingMakeEncodeTable #[1, 2, 3, 3] 4 3) 4 3).getD 7 0 =
        3 ∧
      (zlingMakeDecodeTable #[1, 2, 3, 3] (zlingMakeEncodeTable #[1, 2, 3, 3] 4 3) 4 2).getD 3 0 =
        65535 :=
  ⟨@zlingMakeDecodeTable_lookup #[1, 2, 3, 3] 4 3 3 (by decide +kernel) (by decide) (by decide)
      le_rfl 3 (by decide) (by decide) (by decide) 7 (by decide) (by decide +kernel),
    @zlingMakeDecodeTable_lookup #[1, 2, 3, 3] 4 3 2 (by decide +kernel) (by decide) (by decide)
      (by decide) 3 (by decide) (by decide) (by decide) 3 (by decide) (by decide +kernel)⟩

end Lzbench
