import Lzbench.ZlingBits

/-!
# Items that no encoder wrote

What the decoder of a block accepts need not be what an encoder made.  The positions in a bucket
are all behind the decoder, so that a match is copied from what is there; but the index `0` of a
match names the position that has just been entered, and `IncrementalCopyFastPath` goes on for ever
where it copies from a place to itself.

## Main definitions

* `Placed` — where the buckets point, and what has been written.
* `Stuck` — a match of index `0` is come to.
* `zlingDecodeBlock_decode` — which of the blocks that are accepted the decoder makes text of.
-/

namespace Lzbench

open Imperative

/-! ## Copies that end -/

/-- A copy from a place to itself goes on for ever. -/
theorem incrementalCopy_self (fuel : ℕ) (m : Mem) (p len : ℕ) :
    incrementalCopyFastPath fuel m p p len = none := by
  induction fuel generalizing m len with
  | zero => rfl
  | succ fuel ih =>
    rw [incrementalCopyFastPath, if_pos (by omega), Nat.sub_self]
    exact ih _ _

/-- Any other ends, and writes at most three bytes too many.  With two bytes of distance it may be
the second round. -/
theorem incrementalCopy_within {fuel : ℕ} {m : Mem} {src dst len : ℕ} (hlt : src < dst)
    (hfuel : 4 ≤ (dst - src) * 2 ^ fuel)
    (hlen : dst - src < 4 → 4 ≤ len ∨ dst - src = 2 ∧ 3 ≤ len) :
    ∃ out, incrementalCopyFastPath (fuel + 1) m src dst len = some out ∧
      Mem.WritesWithin m out dst (len + 3) := by
  induction fuel generalizing m dst len with
  | zero =>
    rw [pow_zero, Nat.mul_one] at hfuel
    refine ⟨_, by rw [incrementalCopyFastPath, if_neg (by omega)], ?_⟩
    exact (writesWithin_copyWords _ _ _ _).mono le_rfl (by omega)
  | succ fuel ih =>
    by_cases hnear : dst - src < 4
    · have hword : Mem.WritesWithin m (copyWord m src dst) dst (len + 3) := by
        intro q hq
        exact if_neg (by omega)
      have hdouble : 4 ≤ (dst + (dst - src) - src) * 2 ^ fuel := by
        rw [show dst + (dst - src) - src = (dst - src) * 2 by omega, Nat.mul_assoc, ← Nat.pow_succ']
        exact hfuel
      obtain ⟨out, hrun, hwithin⟩ := @ih (copyWord m src dst) (dst + (dst - src))
        (len - (dst - src)) (by omega) hdouble (by omega)
      refine ⟨out, ?_, hword.trans (hwithin.mono (by omega) (by omega))⟩
      rw [incrementalCopyFastPath, if_pos hnear, hrun]
    · refine ⟨_, by rw [incrementalCopyFastPath, if_neg hnear], ?_⟩
      exact (writesWithin_copyWords _ _ _ _).mono le_rfl (by omega)

/-! ## The buckets -/

theorem rollingSub_zero {head : ℕ} (hhead : head < kBucketItemSize) :
    rollingSub head 0 = head := by
  have hself := rollingSub_rollingSub hhead hhead
  have hzero : rollingSub head head = 0 := by simp [rollingSub, toUInt32]
  rwa [hzero] at hself

theorem rollingSub_ne {head idx : ℕ} (hhead : head < kBucketItemSize) (hidx : idx < kBucketItemSize)
    (hpos : 0 < idx) : rollingSub head idx ≠ head := by
  intro heq
  have hself := rollingSub_rollingSub hhead hidx
  have hzero : rollingSub head head = 0 := by simp [rollingSub, toUInt32]
  rw [heq, hzero] at hself
  omega

/-- All positions in the buckets are before `p`. -/
def Behind (p : ℕ) (buckets : UInt8 → ZlingDecodeBucket) : Prop :=
  ∀ c n, (buckets c).offset n < p

theorem behind_reset {p : ℕ} (hp : 0 < p) : Behind p fun _ => .reset := fun _ _ => hp

theorem Behind.update {p : ℕ} {buckets : UInt8 → ZlingDecodeBucket} (h : Behind p buckets)
    (buf : Mem) (idx : ℕ) {q : ℕ} (hq : p < q) :
    Behind q (getMatchAndUpdate buckets buf p idx).2 := by
  intro c n
  by_cases hc : c = buf (p - 1)
  · subst hc
    simp only [getMatchAndUpdate, Function.update_self, ZlingDecodeBucket.update]
    by_cases hn : n = rollingAdd (buckets (buf (p - 1))).head 1
    · rwa [hn, Function.update_self]
    · rw [Function.update_of_ne hn]
      exact (h _ n).trans hq
  · simp only [getMatchAndUpdate, Function.update_of_ne hc]
    exact (h c n).trans hq

/-- Only the index `0` names the position itself. -/
theorem Behind.found {p : ℕ} {buckets : UInt8 → ZlingDecodeBucket} (h : Behind p buckets)
    (buf : Mem) {idx : ℕ} (hidx : idx < kBucketItemSize) :
    (getMatchAndUpdate buckets buf p idx).1 = p ∧ idx = 0 ∨
      (getMatchAndUpdate buckets buf p idx).1 < p ∧ idx ≠ 0 := by
  have hhead := rollingAdd_lt (buckets (buf (p - 1))).head 1
  by_cases hzero : idx = 0
  · refine Or.inl ⟨?_, hzero⟩
    simp only [getMatchAndUpdate, ZlingDecodeBucket.update, hzero, rollingSub_zero hhead,
      Function.update_self]
  · refine Or.inr ⟨?_, hzero⟩
    have hne := rollingSub_ne hhead hidx (Nat.pos_of_ne_zero hzero)
    simp only [getMatchAndUpdate, ZlingDecodeBucket.update, Function.update_of_ne hne]
    exact h _ _

theorem Behind.mono {p q : ℕ} {buckets : UInt8 → ZlingDecodeBucket} (h : Behind p buckets)
    (hle : p ≤ q) : Behind q buckets := fun c n => (h c n).trans_le hle

/-! ## An item -/

/-- What holds of a decoder that has begun at `decpos` with `text`. -/
structure Placed (decpos : ℕ) (text : Mem) (s : RolzDecode) : Prop where
  opos_pos : 0 < s.opos
  opos_ge : decpos ≤ s.opos
  behind : Behind s.opos s.buckets
  within : Mem.WritesWithin text s.obuf decpos (s.opos - decpos + 3)

section Item

variable {decpos encpos n : ℕ} {text : Mem} {ibuf : ℕ → ℕ} {s s' : RolzDecode} {item : ZlingItem}
  {items : List ZlingItem}

/-- Some bytes more are put down, and the position before them is entered. -/
theorem Placed.forward (h : Placed decpos text s) {obuf buf : Mem} {k : ℕ} (idx : ℕ) (hk : 0 < k)
    (hwithin : Mem.WritesWithin s.obuf obuf s.opos (k + 3))
    (hopos : s'.opos = s.opos + k) (hobuf : s'.obuf = obuf)
    (hbuckets : s'.buckets = (getMatchAndUpdate s.buckets buf s.opos idx).2) :
    Placed decpos text s' := by
  have hge := h.opos_ge
  refine ⟨by omega, by omega, ?_, ?_⟩
  · rw [hbuckets]
    exact h.behind.update buf idx (by omega)
  · rw [hobuf]
    exact (h.within.mono le_rfl (by omega)).trans (hwithin.mono hge (by omega))

theorem writesWithin_two (m : Mem) (p k : ℕ) (a b : UInt8) :
    Mem.WritesWithin m (Function.update (Function.update m p a) (p + 1) b) p (k + 2) := by
  intro q hq
  rw [Function.update_of_ne (by omega), Function.update_of_ne (by omega)]

/-- The code of a literal. -/
theorem Placed.literal (h : Placed decpos text s) : Placed decpos text (s.literal ibuf) := by
  refine h.forward 0 Nat.one_pos ?_ rfl rfl rfl
  exact (writesWithin_update _ _ _).mono le_rfl (by omega)

theorem Placed.word (h : Placed decpos text s) (word : ℕ) :
    Placed decpos text (s.word word) :=
  h.forward 0 Nat.two_pos (writesWithin_two _ _ 3 _ _) rfl rfl rfl

/-- A match is copied, but for one of index `0`. -/
theorem Placed.copy (h : Placed decpos text s) (hidx : ibuf (s.ipos + 1) < kBucketItemSize) :
    ibuf (s.ipos + 1) = 0 ∧ s.copy ibuf = none ∨
      ibuf (s.ipos + 1) ≠ 0 ∧ ∃ s', s.copy ibuf = some s' ∧ s'.ipos = s.ipos + 2 ∧
        s'.opos = s.opos + (ibuf s.ipos - 258 + kMatchMinLen) ∧ Placed decpos text s' := by
  obtain ⟨hself, hzero⟩ | ⟨hlt, hne⟩ := h.behind.found s.obuf hidx
  · refine Or.inl ⟨hzero, ?_⟩
    simp only [RolzDecode.copy, hself, incrementalCopy_self, Option.map_none]
  · obtain ⟨out, hrun, hwithin⟩ := @incrementalCopy_within 2 s.obuf _ s.opos
      (ibuf s.ipos - 258 + kMatchMinLen) hlt (by omega)
      (fun _ => Or.inl (Nat.le_add_left kMatchMinLen _))
    refine Or.inr ⟨hne, _, congrArg (Option.map _) hrun, rfl, rfl, ?_⟩
    exact h.forward (ibuf (s.ipos + 1))
      (Nat.lt_of_lt_of_le (by decide) (Nat.le_add_left kMatchMinLen _)) hwithin rfl rfl rfl

/-- What is done for an item, whatever the item. -/
theorem Placed.round (h : Placed decpos text s) (hvalid : item.Valid)
    (hreads : ∀ i < item.codes.length, ibuf (s.ipos + i) = item.codes.getD i 0) :
    item.2 = some 0 ∧ s.round ibuf = none ∨
      item.2 ≠ some 0 ∧ ∃ s', s.round ibuf = some s' ∧ s'.ipos = s.ipos + item.codes.length ∧
        s'.opos = s.opos + item.size ∧ Placed decpos text s' := by
  obtain ⟨c, idx⟩ := item
  have hc : ibuf s.ipos = c := hreads 0 (by simp [ZlingItem.codes])
  cases idx with
  | none =>
    have hlt : c < 258 := hvalid
    refine Or.inr ⟨(Option.some_ne_none 0).symm, ?_⟩
    by_cases hliteral : c < 256
    · refine ⟨_, by rw [RolzDecode.round, hc, if_pos hliteral], rfl, ?_, h.literal⟩
      simp [ZlingItem.size, hliteral, RolzDecode.literal]
    have hsize : ZlingItem.size (c, none) = 2 := by
      simp only [ZlingItem.size, if_neg hliteral, if_pos hlt]
    by_cases hlast : c = 256
    · refine ⟨_, by rw [RolzDecode.round, hc, if_neg hliteral, if_pos hlast], rfl, ?_, h.word _⟩
      rw [hsize]
      rfl
    · have hbefore : c = 257 := by omega
      refine ⟨_, by rw [RolzDecode.round, hc, if_neg hliteral, if_neg hlast, if_pos hbefore], rfl,
        ?_, ?_⟩
      · rw [hsize]
        rfl
      · obtain ⟨hpos, hge, hbehind, hwithin⟩ := h.word (s.wordMru.words (s.obuf (s.opos - 1))).2
        exact ⟨hpos, hge, hbehind, hwithin⟩
  | some idx =>
    obtain ⟨hmatch, -, hplace⟩ : 258 ≤ c ∧ _ ∧ idx < kBucketItemSize := hvalid
    have hidx : ibuf (s.ipos + 1) = idx := hreads 1 (by simp [ZlingItem.codes])
    have hsize : ZlingItem.size (c, some idx) = c - 258 + kMatchMinLen := by
      simp only [ZlingItem.size, if_neg (show ¬ c < 256 by omega), if_neg (not_lt.mpr hmatch)]
    have hround : s.round ibuf = s.copy ibuf := by
      rw [RolzDecode.round, hc, if_neg (by omega), if_neg (by omega), if_neg (by omega)]
    have hcopy := @Placed.copy decpos text ibuf s h (hidx ▸ hplace)
    rw [hidx, hc, ← hround, ← hsize] at hcopy
    have hzero : (c, some idx).2 = some 0 ↔ idx = 0 := Option.some_inj
    rwa [ne_eq, hzero]

end Item

/-! ## A block -/

/-- A match of index `0` is come to from `pos`, with no item before it that ends behind
`encpos`. -/
def Stuck (encpos : ℕ) : ℕ → List ZlingItem → Prop
  | _, [] => False
  | pos, item :: items =>
    item.2 = some 0 ∨ pos + item.size ≤ encpos ∧ Stuck encpos (pos + item.size) items

instance instDecidableStuck (encpos : ℕ) :
    ∀ pos items, Decidable (Stuck encpos pos items)
  | _, [] => inferInstanceAs (Decidable False)
  | pos, item :: items =>
    have := instDecidableStuck encpos (pos + item.size) items
    inferInstanceAs (Decidable (_ ∨ _ ∧ _))

/-- How a call of the decoder for some items ends. -/
inductive DecodeEnds (decpos encpos : ℕ) (text : Mem) (pos : ℕ) (items : List ZlingItem) :
    Option (Option RolzDecode) → Prop
  | hangs : Stuck encpos pos items → DecodeEnds decpos encpos text pos items none
  | fails : ¬ Stuck encpos pos items → pos + (items.map ZlingItem.size).sum ≠ encpos →
      DecodeEnds decpos encpos text pos items (some none)
  | returns (s : RolzDecode) : ¬ Stuck encpos pos items →
      pos + (items.map ZlingItem.size).sum = encpos → s.opos = encpos → Placed decpos text s →
      DecodeEnds decpos encpos text pos items (some (some s))

/-- Each item takes a round. -/
theorem BeginBefore.length_le {n i : ℕ} {items : List ZlingItem} (h : BeginBefore n i items) :
    items = [] ∨ i + items.length ≤ n := by
  induction items generalizing i with
  | nil => exact Or.inl rfl
  | cons item items ih =>
    obtain ⟨hlt, hrest⟩ := h
    have hpos := item.length_codes.1
    refine Or.inr ?_
    rw [List.length_cons]
    cases ih hrest with
    | inl hnil =>
      rw [hnil, List.length_nil]
      omega
    | inr hle => omega

section Block

variable {decpos encpos n : ℕ} {text : Mem} {ibuf : ℕ → ℕ} {s : RolzDecode}
  {items : List ZlingItem}

/-- The rounds for some items. -/
theorem Placed.run (h : Placed decpos text s) (hvalid : ∀ item ∈ items, item.Valid)
    (hreads : ∀ i < (items.flatMap ZlingItem.codes).length,
      ibuf (s.ipos + i) = (items.flatMap ZlingItem.codes).getD i 0)
    (hbegin : BeginBefore n s.ipos items)
    (hend : n ≤ s.ipos + (items.flatMap ZlingItem.codes).length) {fuel : ℕ}
    (hfuel : items.length < fuel) :
    DecodeEnds decpos encpos text s.opos items
      (loopTo (RolzDecode.step ibuf n encpos) fuel s) := by
  induction items generalizing s fuel with
  | nil =>
    obtain ⟨fuel, rfl⟩ := Nat.exists_eq_succ_of_ne_zero (Nat.ne_of_gt hfuel)
    have hlast : ¬ s.ipos < n := not_lt.mpr hend
    by_cases hall : s.opos = encpos
    · have hstep : s.step ibuf n encpos = .inr (some s) := by
        rw [RolzDecode.step, if_neg hlast, if_neg (not_not_intro hall)]
      rw [loopTo_return hstep]
      exact .returns s id hall hall h
    · have hstep : s.step ibuf n encpos = .inr none := by
        rw [RolzDecode.step, if_neg hlast, if_pos hall]
      rw [loopTo_return hstep]
      exact .fails id hall
  | cons item items ih =>
    obtain ⟨fuel, rfl⟩ := Nat.exists_eq_succ_of_ne_zero (Nat.ne_of_gt (Nat.zero_lt_of_lt hfuel))
    obtain ⟨hlt, hbefore⟩ := hbegin
    have hitem := hvalid item List.mem_cons_self
    rw [List.flatMap_cons, List.length_append] at hreads hend
    have hcodes : ∀ i < item.codes.length, ibuf (s.ipos + i) = item.codes.getD i 0 := by
      intro i hi
      rw [hreads i (by omega), List.getD_append _ _ _ _ hi]
    obtain ⟨hzero, hround⟩ | ⟨hne, s', hround, hipos, hopos, hplaced⟩ := h.round hitem hcodes
    · -- the round does not end
      have hstep : s.step ibuf n encpos = .inl s := by
        rw [RolzDecode.step, if_pos hlt, hround]
      rw [loopTo_self hstep]
      exact .hangs (Or.inl hzero)
    · have hstep : s.step ibuf n encpos =
          if s'.opos > encpos then .inr none else .inl s' := by
        rw [RolzDecode.step, if_pos hlt, hround]
      have hsum : s.opos + ((item :: items).map ZlingItem.size).sum =
          s'.opos + (items.map ZlingItem.size).sum := by
        rw [List.map_cons, List.sum_cons, hopos, Nat.add_assoc]
      by_cases hover : s'.opos > encpos
      · rw [if_pos hover] at hstep
        rw [loopTo_return hstep]
        refine .fails ?_ (by omega)
        rintro (hzero | ⟨hle, -⟩)
        · exact hne hzero
        · omega
      · rw [if_neg hover] at hstep
        rw [loopTo_next hstep]
        have hstuck : Stuck encpos s.opos (item :: items) ↔ Stuck encpos s'.opos items := by
          rw [Stuck, ← hopos]
          simp only [hne, false_or, not_lt.mp hover, true_and]
        have hrest : ∀ i < (items.flatMap ZlingItem.codes).length,
            ibuf (s'.ipos + i) = (items.flatMap ZlingItem.codes).getD i 0 := by
          intro i hi
          rw [hipos, Nat.add_assoc, hreads _ (by omega),
            List.getD_append_right _ _ _ _ (Nat.le_add_right _ _), Nat.add_sub_cancel_left]
        have hmore := ih hplaced (fun item hmem => hvalid item (List.mem_cons_of_mem _ hmem))
          hrest (hipos ▸ hbefore) (by omega) (Nat.lt_of_succ_lt_succ hfuel)
        generalize loopTo (RolzDecode.step ibuf n encpos) fuel s' = r at hmore ⊢
        cases hmore with
        | hangs hs => exact .hangs (hstuck.mpr hs)
        | fails hs hne => exact .fails (mt hstuck.mp hs) (hsum ▸ hne)
        | returns t hs heq hopos ht => exact .returns t (mt hstuck.mp hs) (hsum.trans heq) hopos ht

/-- The first bytes of a buffer are put down as they are. -/
theorem Placed.start {d : ZlingRolzDecoder} (hd : Behind (max 1 decpos) d.buckets) {first : List ℕ}
    (hfirst : first.length = 2 - decpos) (hn : first.length ≤ n) :
    Placed decpos text (d.start ibuf text n decpos) ∧
      (d.start ibuf text n decpos).ipos = first.length ∧
      (d.start ibuf text n decpos).opos = decpos + first.length := by
  by_cases hzero : decpos = 0
  · subst hzero
    have htake : 0 < n ∧ 1 < n := by omega
    have hs : d.start ibuf text n 0 =
        { d with
          ipos := 2
          opos := 2
          obuf := Function.update (Function.update text 0 (.ofNat (ibuf 0))) 1 (.ofNat (ibuf 1))
          wordMru := .init } := by
      simp [ZlingRolzDecoder.start, RolzDecode.firstByte, htake]
    rw [hs, hfirst]
    exact ⟨⟨Nat.two_pos, Nat.zero_le _, hd.mono (Nat.le_succ 1), writesWithin_two _ 0 3 _ _⟩, rfl,
      rfl⟩
  by_cases hone : decpos = 1
  · subst hone
    have htake : 0 < n := by omega
    have hs : d.start ibuf text n 1 =
        { d with
          ipos := 1
          opos := 2
          obuf := Function.update text 1 (.ofNat (ibuf 0))
          wordMru := .init } := by
      simp [ZlingRolzDecoder.start, RolzDecode.firstByte, htake]
    rw [hs, hfirst]
    exact ⟨⟨Nat.two_pos, Nat.le_succ 1, hd.mono (Nat.le_succ 1),
      (writesWithin_update _ _ _).mono le_rfl (Nat.le_add_left _ _)⟩, rfl, rfl⟩
  · have hs : d.start ibuf text n decpos =
        { d with ipos := 0, opos := decpos, obuf := text, wordMru := .init } := by
      simp [ZlingRolzDecoder.start, RolzDecode.firstByte, hzero, hone]
    have hnone : first.length = 0 := by omega
    have hpos : 0 < decpos := Nat.pos_of_ne_zero hzero
    rw [hs, hnone]
    exact ⟨⟨hpos, le_rfl, hd.mono (max_le hpos le_rfl), Mem.writesWithin_refl _ _ _⟩, rfl, rfl⟩

/-- A call of the decoder, with any items behind the first bytes of a buffer. -/
theorem decode_items {d : ZlingRolzDecoder} (hd : Behind (max 1 decpos) d.buckets)
    {first : List ℕ} (hfirst : first.length = 2 - decpos) (hn : first.length ≤ n)
    (hvalid : ∀ item ∈ items, item.Valid)
    (hreads : Reads ibuf (first ++ items.flatMap ZlingItem.codes))
    (hbegin : BeginBefore n first.length items)
    (hend : n ≤ (first ++ items.flatMap ZlingItem.codes).length) :
    DecodeEnds decpos encpos text (decpos + first.length) items
      (d.decode ibuf text n encpos decpos) := by
  obtain ⟨hplaced, hipos, hopos⟩ := @Placed.start decpos n text ibuf d hd first hfirst hn
  rw [List.length_append] at hend
  have hrest : ∀ i < (items.flatMap ZlingItem.codes).length,
      ibuf ((d.start ibuf text n decpos).ipos + i) =
        (items.flatMap ZlingItem.codes).getD i 0 := by
    intro i hi
    rw [hipos]
    exact hreads.next hi
  have hfuel : items.length < n + 1 := by
    cases hbegin.length_le with
    | inl hnil => exact hnil ▸ Nat.zero_lt_succ n
    | inr hle => omega
  have hrun : DecodeEnds decpos encpos text (d.start ibuf text n decpos).opos items
      (d.decode ibuf text n encpos decpos) :=
    hplaced.run hvalid hrest (hipos ▸ hbegin) (hipos ▸ hend) hfuel
  rwa [hopos] at hrun

/-- For every block that the Huffman decoder accepts, but for the first one of a buffer: the ROLZ
decoder hangs exactly if it comes to a match of index `0`, it fails exactly if the items do not
end at `encpos`, and where it returns it has written at most three bytes behind that.  `Decode` does
not check `encpos`: beyond `kBlockSizeIn` and the sentinel it is outside of the buffer of the
source, which is a memory without an end here. -/
theorem zlingDecodeBlock_decode {obuf : Mem} {tbuf tbuf' : ℕ → ℕ} {rlen : ℕ}
    (h : zlingDecodeBlock obuf tbuf rlen = .ok tbuf') (hpos : 2 ≤ decpos) {d : ZlingRolzDecoder}
    (hd : Behind decpos d.buckets) (encpos : ℕ) (text : Mem) :
    ∃ items : List ZlingItem, (∀ item ∈ items, item.Valid) ∧ BeginBefore rlen 0 items ∧
      rlen ≤ (items.flatMap ZlingItem.codes).length ∧
      Reads tbuf' (items.flatMap ZlingItem.codes) ∧
      DecodeEnds decpos encpos text decpos items (d.decode tbuf' text rlen encpos decpos) := by
  obtain ⟨items, hvalid, hge, hbegin, hreads, -⟩ := zlingDecodeBlock_wellFormed h
  have hfirst : ([] : List ℕ).length = 2 - decpos := by
    rw [List.length_nil]
    omega
  exact ⟨items, hvalid, hbegin, hge, hreads, decode_items (hd.mono (le_max_right _ _)) hfirst
    (Nat.zero_le _) hvalid hreads hbegin hge⟩

end Block

/-- A block of one match, of index `0`. -/
theorem zlingDecodeBlock_decode_hangs :
    ∃ bytes tbuf, zlingEncodeBlock (.sorted _) [258, 0] = some bytes ∧
      zlingDecodeBlock (Mem.ofList bytes) (fun _ => 0) 2 = .ok tbuf ∧
      ZlingRolzDecoder.init.decode tbuf (fun _ => 0) 2 6 2 = none := by
  have hvalid : ∀ item ∈ ([(258, some 0)] : List ZlingItem), item.Valid := by
    intro item hitem
    rw [List.mem_singleton.mp hitem]
    exact (by decide : 258 ≤ 258 ∧ 258 < 258 + (kMatchMaxLen - kMatchMinLen + 1) ∧
      0 < kBucketItemSize)
  obtain ⟨scaling1, scaling2, t, htables, hblock, ht⟩ :=
    exists_blockTables (.sorted _) hvalid (by decide)
  have hbytes : ∀ i < (encodeItems t [(258, some 0)]).length,
      Mem.ofList (encodeItems t [(258, some 0)]) i = (encodeItems t [(258, some 0)]).getD i 0 :=
    fun _ _ => rfl
  obtain ⟨tbuf, hdecode, hcodes⟩ := htables.decodes ht hbytes fun _ => 0
  have hbehind : Behind 2 ZlingRolzDecoder.init.buckets := behind_reset Nat.two_pos
  obtain ⟨items, hitems, -, hge, hreads, hends⟩ :=
    zlingDecodeBlock_decode hdecode le_rfl hbehind 6 fun _ => 0
  refine ⟨_, tbuf, hblock, hdecode, ?_⟩
  have hstuck : Stuck 6 2 items := by
    have hlen : 2 ≤ (items.flatMap ZlingItem.codes).length := hge
    have hcode : ∀ i < 2, (items.flatMap ZlingItem.codes).getD i 0 = [258, 0].getD i 0 :=
      fun i hi => (hreads i (by omega)).symm.trans (hcodes i hi)
    match items, hitems with
    | [], _ => exact absurd hlen (by decide)
    | (c, none) :: _, hitems =>
      have hc : c = 258 := hcode 0 Nat.two_pos
      have hlt : c < 258 := hitems _ List.mem_cons_self
      omega
    | (c, some idx) :: _, _ =>
      have hidx : idx = 0 := hcode 1 Nat.one_lt_two
      exact Or.inl (congrArg some hidx)
  have hends : DecodeEnds 2 6 (fun _ => 0) 2 items
      (ZlingRolzDecoder.init.decode tbuf (fun _ => 0) 2 6 2) := hends
  generalize ZlingRolzDecoder.init.decode tbuf (fun _ => 0) 2 6 2 = r at hends ⊢
  cases hends with
  | hangs _ => rfl
  | fails hnot _ => exact absurd hstuck hnot
  | returns _ hnot _ _ _ => exact absurd hstuck hnot

end Lzbench
