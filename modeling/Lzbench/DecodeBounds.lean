import Lzbench.Decompress

/-!
# Where the decompression loop writes

`lzbench_decompress` moves the output pointer by what a decoder says it has written, not
by the size of the chunk, and ends only at a result that is not positive.  A decoder that
says too much therefore moves the regions of all later chunks, and nothing bounds them:
the loop has no count of the room left, as `lzbench_compress` has.

How far a run gets into a buffer of the total size is decided by the surplus of the
results over the sizes of their chunks.

## Main definitions

* `Scripted` — a decoder whose calls return a given sequence.
* `dlens` — the results of a list of chunks.
* `SurplusFits` — the surplus never exceeds the chunks still to come.
* `regions_within_iff` — when every region lies inside the buffer.
-/

namespace Lzbench

open Imperative

variable {σ : Type}

/-- The decoder's calls return the elements of `rets` in turn, whatever they are given;
`calls` counts the calls made. -/
structure Scripted (decompress : CompressFunc σ) (calls : σ → ℕ) (rets : ℕ → ℤ) : Prop where
  ret_eq : ∀ a w, (decompress a w).ret = rets (calls w)
  calls_eq : ∀ a w, calls (decompress a w).world = calls w + 1
  ret_lt : ∀ k, rets k < 2 ^ 63

/-- The results of a list of chunks, from the `k`-th decoder call on, were none of them to
end the loop: a raw chunk gives its own size. -/
def dlens (rets : ℕ → ℤ) : ℕ → List (ℕ × ℕ) → List ℤ
  | _, [] => []
  | k, (part, chunk) :: rest =>
    if part = chunk then toInt64 part :: dlens rets k rest
    else rets k :: dlens rets (k + 1) rest

/-- At every chunk that the loop comes to, the surplus of the results so far over the
sizes of their chunks is at most the sizes of the chunks that follow. -/
def SurplusFits (rets : ℕ → ℤ) (chunkSizes comprSizes : List ℕ) : Prop :=
  let results := dlens rets 0 (comprSizes.zip chunkSizes)
  ∀ i < (chunkCount comprSizes.length).toNat, (∀ d ∈ results.take i, 0 < d) →
    (results.take i).sum - (chunkSizes.take i).sum ≤ (chunkSizes.drop (i + 1)).sum

/-- The regions handed out for chunks of the given sizes, from `outpos` on: each begins
where the results so far point, and a result that is not positive is the last. -/
def regions : ℕ → List ℤ → List ℕ → List (ℕ × ℕ)
  | outpos, d :: results, chunk :: chunks =>
    (outpos, chunk) :: if 0 < d then regions (outpos + d.toNat) results chunks else []
  | _, _, _ => []

theorem length_dlens (rets : ℕ → ℤ) (k : ℕ) (entries : List (ℕ × ℕ)) :
    (dlens rets k entries).length = entries.length := by
  induction entries generalizing k with
  | nil => rfl
  | cons e entries ih =>
    simp only [dlens]
    split <;> simp [ih]

/-- The first results are those of the first chunks. -/
theorem take_dlens (rets : ℕ → ℤ) (k n : ℕ) (entries : List (ℕ × ℕ)) :
    (dlens rets k entries).take n = dlens rets k (entries.take n) := by
  induction entries generalizing k n with
  | nil => simp [dlens]
  | cons e entries ih =>
    cases n with
    | zero => rfl
    | succ n =>
      simp only [List.take_succ_cons, dlens]
      split <;> simp [ih]

/-- All regions end within the first `total` bytes when each one that is handed out
does. -/
theorem regions_within_iff_forall (total outpos : ℕ) (results : List ℤ) (chunks : List ℕ)
    (hlen : results.length = chunks.length) :
    (∀ r ∈ regions outpos results chunks, r.1 + r.2 ≤ total) ↔
      ∀ i < chunks.length, (∀ d ∈ results.take i, 0 < d) →
        (outpos : ℤ) + (results.take i).sum + chunks.getD i 0 ≤ total := by
  induction results generalizing outpos chunks with
  | nil =>
    obtain rfl : chunks = [] := List.length_eq_zero_iff.mp hlen.symm
    simp [regions]
  | cons d results ih =>
    cases chunks with
    | nil => simp at hlen
    | cons chunk chunks =>
      have hrest := ih (outpos + d.toNat) chunks (by simpa using hlen)
      rw [regions, List.forall_mem_cons, List.length_cons, Nat.forall_lt_succ_left]
      simp only [List.take_zero, List.sum_nil, List.getD_cons_zero, List.take_succ_cons,
        List.forall_mem_cons, List.sum_cons, List.getD_cons_succ]
      have hfirst : outpos + chunk ≤ total ↔
          ((∀ d' ∈ ([] : List ℤ), 0 < d') → (outpos : ℤ) + 0 + chunk ≤ total) := by
        simp only [List.not_mem_nil, false_implies, implies_true, forall_true_left]
        omega
      refine and_congr hfirst ?_
      by_cases hd : 0 < d
      · -- the result is positive, so it is how far the rest is moved
        rw [if_pos hd, hrest]
        refine forall₂_congr fun i _ => ?_
        rw [and_iff_right hd, Int.natCast_add, Int.toNat_of_nonneg hd.le,
          Int.add_assoc (outpos : ℤ)]
      · rw [if_neg hd]
        simp [hd]

section Run

variable {decompress : CompressFunc σ} {calls : σ → ℕ} {rets : ℕ → ℤ} {inbuf : Mem}
  {param1 param2 workmem : ℕ}

/-- One chunk: its result, and the decoder calls made. -/
theorem Scripted.chunk (h : Scripted decompress calls rets) (s : DecompressState σ)
    (entry : ℕ × ℕ) (rest : List (ℕ × ℕ)) {r : CodecResult σ}
    (hr : decompressChunk decompress inbuf param1 param2 workmem s entry.1 entry.2 = r) :
    dlens rets (calls s.world) (entry :: rest) = r.ret :: dlens rets (calls r.world) rest ∧
      r.ret < 2 ^ 63 := by
  subst hr
  by_cases heq : entry.1 = entry.2
  · simp only [decompressChunk, dlens, if_pos heq]
    exact ⟨trivial, toInt64_lt _⟩
  · simp only [decompressChunk, dlens, if_neg heq, h.ret_eq, h.calls_eq]
    exact ⟨trivial, h.ret_lt _⟩

/-- The regions of the loop are those that the results point to. -/
theorem Scripted.writes_eq (h : Scripted decompress calls rets) (entries : List (ℕ × ℕ))
    (s : DecompressState σ) :
    (decompressResult (entries.foldlM (decompressStep decompress inbuf param1 param2 workmem)
        s)).writes.map (fun wr => (wr.outpos, wr.size)) =
      s.writes.map (fun wr => (wr.outpos, wr.size)) ++
        regions s.outpos (dlens rets (calls s.world) entries) (entries.map Prod.snd) := by
  induction entries generalizing s with
  | nil => simp [decompressResult, regions, dlens, pure, Except.pure]
  | cons entry rest ih =>
    cases hr : decompressChunk decompress inbuf param1 param2 workmem s entry.1 entry.2 with
    | mk ret out world =>
      obtain ⟨hresults, hlt⟩ := h.chunk s entry rest hr
      dsimp only at hlt
      rw [List.foldlM_cons, hresults, List.map_cons, regions]
      simp only [decompressStep, hr]
      by_cases hle : ret ≤ 0
      · rw [if_pos hle, if_neg (by omega)]
        simp [decompressResult, DecompressState.wrote, bind, Except.bind]
      · have hcast : toSize ret = ret.toNat := toSize_of_nonneg (by omega) (by omega)
        rw [if_neg hle, if_pos (by omega)]
        simp only [bind, Except.bind]
        rw [ih, hcast]
        simp [DecompressState.wrote, DecompressState.advance]

end Run

/-- Every region that a call hands to a decoder or copies a raw chunk into lies inside the
total size of the chunks exactly when the surplus of the results fits. -/
theorem regions_within_iff {decompress : CompressFunc σ} {calls : σ → ℕ} {rets : ℕ → ℤ}
    (h : Scripted decompress calls rets) (inbuf : Mem) (param1 param2 workmem : ℕ)
    {chunkSizes comprSizes : List ℕ} (hlen : comprSizes.length = chunkSizes.length) (outbuf : Mem)
    {w : σ} (hw : calls w = 0) :
    (∀ wr ∈ (lzbenchDecompress decompress inbuf param1 param2 workmem chunkSizes comprSizes outbuf
        w).writes, wr.outpos + wr.size ≤ chunkSizes.sum) ↔
      SurplusFits rets chunkSizes comprSizes := by
  have hwrites : (lzbenchDecompress decompress inbuf param1 param2 workmem chunkSizes comprSizes
      outbuf w).writes.map (fun wr => (wr.outpos, wr.size)) =
        regions 0 ((dlens rets 0 (comprSizes.zip chunkSizes)).take
          (chunkCount comprSizes.length).toNat)
          (((comprSizes.zip chunkSizes).take (chunkCount comprSizes.length).toNat).map
            Prod.snd) := by
    rw [lzbenchDecompress, h.writes_eq, take_dlens]
    simp only [decompressInit, List.map_nil, List.nil_append, hw]
  have hmap : (∀ wr ∈ (lzbenchDecompress decompress inbuf param1 param2 workmem chunkSizes
      comprSizes outbuf w).writes, wr.outpos + wr.size ≤ chunkSizes.sum) ↔
        ∀ r ∈ (lzbenchDecompress decompress inbuf param1 param2 workmem chunkSizes comprSizes outbuf
          w).writes.map fun wr => (wr.outpos, wr.size), r.1 + r.2 ≤ chunkSizes.sum := by
    rw [List.forall_mem_map]
  have hcount : (dlens rets 0 (comprSizes.zip chunkSizes)).length = chunkSizes.length := by
    rw [length_dlens, List.length_zip]
    omega
  have hn : (chunkCount comprSizes.length).toNat ≤ chunkSizes.length :=
    (chunkCount_le _).trans_eq hlen
  rw [hmap, hwrites, List.map_take, List.map_snd_zip (by omega), SurplusFits]
  generalize dlens rets 0 (comprSizes.zip chunkSizes) = results at hcount ⊢
  generalize (chunkCount comprSizes.length).toNat = n at hn ⊢
  rw [regions_within_iff_forall _ _ _ _ (by simp [hcount]), List.length_take, Nat.min_eq_left hn]
  -- chunk by chunk, the end of its region against what the total leaves for the chunks behind
  apply forall₂_congr
  intro i hi
  have haround := sum_around chunkSizes (hi.trans_le hn)
  have hget : (chunkSizes.take n).getD i 0 = chunkSizes.getD i 0 := by
    simp only [List.getD_eq_getElem?_getD, List.getElem?_take, if_pos hi]
  rw [List.take_take, Nat.min_eq_left hi.le, hget]
  apply imp_congr_right
  intro _
  constructor <;> intro hle <;> omega

/-- A decoder with the results `rets`, which writes nothing. -/
def scriptDecoder (rets : ℕ → ℤ) : CompressFunc ℕ := fun a k => ⟨rets k, a.outbuf, k + 1⟩

theorem scriptDecoder_scripted {rets : ℕ → ℤ} (hrets : ∀ k, rets k < 2 ^ 63) :
    Scripted (scriptDecoder rets) id rets :=
  ⟨fun _ _ => rfl, fun _ _ => rfl, hrets⟩

/-- Two chunks of four bytes, the second one stored raw. -/
theorem regions_within_two :
    (∀ wr ∈ (lzbenchDecompress (scriptDecoder fun _ => 3) (fun _ => 0) 0 0 0 [4, 4] [2, 4]
        (fun _ => 0) 0).writes, wr.outpos + wr.size ≤ [4, 4].sum) ↔
      SurplusFits (fun _ => 3) [4, 4] [2, 4] :=
  regions_within_iff (scriptDecoder_scripted fun _ => by norm_num) _ 0 0 0 (by rfl) _ rfl

/-- A decoder whose failure was converted through an unsigned 32-bit integer says that the
first of two chunks of four bytes has 4 GiB; the second one is decoded there. -/
theorem regions_outside :
    ¬ ∀ wr ∈ (lzbenchDecompress (scriptDecoder fun _ => 2 ^ 32 - 1) (fun _ => 0) 0 0 0 [4, 4]
        [2, 2] (fun _ => 0) 0).writes, wr.outpos + wr.size ≤ [4, 4].sum := by
  decide

end Lzbench
