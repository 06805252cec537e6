import Lzbench.ChunkSizes
import Lzbench.Options

/-!
# Sizes as `int`

Many codecs take their sizes as `int`.  What `lzbench_compress` and `lzbench_decompress` hand to
them is a `size_t`, and it is the same number as long as the bound of every chunk stays below
`2 ^ 31`.  The chunk size that is set by default is the largest for which that was meant to
hold; an option can set a larger one.

## Main definitions

* `SizesFitInt` — no size that is handed over changes as an `int`.
* `WithinInt` — the bound of a chunk is an `int`.
* `sizesFitInt_iff` — when the sizes fit.
-/

namespace Lzbench

open Imperative

/-- All that is handed to the codecs for these chunks, in a buffer for `total` bytes, is at most
`INT_MAX`. -/
def SizesFitInt (chunkSizes : List ℕ) (total : ℕ) : Prop :=
  ∀ (σ : Type) (compress decompress : CompressFunc σ) (inbuf : Mem)
    (param1 param2 workmem : ℕ) (comprSizes : List ℕ) (outbuf : Mem) (outsize : UInt64) (w : σ)
    (r : CompressResult σ), outsize.toNat = getCompressBound total →
    lzbenchCompress compress inbuf param1 param2 workmem chunkSizes comprSizes outbuf outsize w =
      .ok r →
    (∀ call ∈ r.calls, call.part < 2 ^ 31 ∧ call.outpart < 2 ^ 31) ∧
    ∀ (decomp : Mem) (w' : σ),
      ∀ write ∈ (lzbenchDecompress decompress r.outbuf param1 param2 workmem chunkSizes
        r.comprSizes decomp w').writes, write.raw = false → write.size < 2 ^ 31

/-- The bound of a chunk, in exact arithmetic. -/
def WithinInt (part : ℕ) : Prop := part + part / 6 + padSize < 2 ^ 31

instance (part : ℕ) : Decidable (WithinInt part) :=
  inferInstanceAs (Decidable (part + part / 6 + padSize < 2 ^ 31))

theorem WithinInt.mono {part part' : ℕ} (h : WithinInt part') (hle : part ≤ part') :
    WithinInt part := by
  simp only [WithinInt] at *
  omega

/-! ## The calls of a run -/

/-- The history of the compression loop after the chunks `done`. -/
structure Calls (done : List ℕ) {σ : Type} (s : CompressState σ) : Prop where
  parts : s.calls.map CompressCall.part = done
  bounds : ∀ call ∈ s.calls, call.outpart ≤ getCompressBound call.part
  length_eq : s.sizes.length = done.length

section Run

variable {σ : Type} (compress : CompressFunc σ) (inbuf : Mem) (param1 param2 workmem : ℕ)

theorem Calls.called {done : List ℕ} {s : CompressState σ} (h : Calls done s) (part : ℕ)
    (r : CodecResult σ) :
    (s.called part (outpart s part) r).calls.map CompressCall.part = done ++ [part] ∧
      ∀ call ∈ (s.called part (outpart s part) r).calls,
        call.outpart ≤ getCompressBound call.part := by
  simp only [CompressState.called, List.map_append, h.parts, List.map_cons, List.map_nil,
    List.forall_mem_append, List.forall_mem_singleton]
  exact ⟨trivial, h.bounds, Nat.min_le_left _ _⟩

/-- One chunk adds one call. -/
theorem calls_step {done : List ℕ} {s : CompressState σ} (h : Calls done s) (part : ℕ) :
    Ends (Calls (done ++ [part]))
      (fun s' => s'.calls.map CompressCall.part = done ++ [part] ∧
        (∀ call ∈ s'.calls, call.outpart ≤ getCompressBound call.part) ∧
        s'.sizes.length ≤ done.length)
      (compressStep compress inbuf param1 param2 workmem s part) := by
  have hstore : ∀ (r : CodecResult σ) (clen : ℕ),
      Calls (done ++ [part]) ((s.called part (outpart s part) r).store part clen) := by
    intro r clen
    obtain ⟨hparts, hbounds⟩ := h.called part r
    refine ⟨hparts, hbounds, ?_⟩
    simp [CompressState.store, CompressState.called, h.length_eq]
  refine ends_compressStep compress inbuf param1 param2 workmem rfl ?raw ?coded ?abort
  case raw =>
    intro _ _
    obtain ⟨hparts, hbounds, hlength⟩ := hstore
      (compress (compressArgs inbuf param1 param2 workmem s part) s.world) part
    exact ⟨hparts, hbounds, hlength⟩
  case coded =>
    intro _ _
    exact hstore _ _
  case abort =>
    intro _ _
    obtain ⟨hparts, hbounds⟩ := h.called part
      (compress (compressArgs inbuf param1 param2 workmem s part) s.world)
    exact ⟨hparts, hbounds, h.length_eq.le⟩

/-- What the history of a call tells. -/
structure CallHistory (chunkSizes : List ℕ) (r : CompressResult σ) : Prop where
  parts : r.calls.map CompressCall.part <+: countedChunks chunkSizes
  all : r.aborted = false → r.calls.map CompressCall.part = countedChunks chunkSizes
  bounds : ∀ call ∈ r.calls, call.outpart ≤ getCompressBound call.part
  length_eq : r.comprSizes.length = (countedChunks chunkSizes).length

theorem callHistory_of_ok {chunkSizes comprSizes : List ℕ} {outbuf : Mem} {outsize : UInt64}
    {w : σ} {r : CompressResult σ}
    (h : lzbenchCompress compress inbuf param1 param2 workmem chunkSizes comprSizes outbuf outsize
      w = .ok r) : CallHistory chunkSizes r := by
  have hlength : ∀ sizes : List ℕ, sizes.length ≤ (countedChunks chunkSizes).length →
      (sizes ++ (comprSizes.takeD (chunkCount chunkSizes.length).toNat 0).drop
        sizes.length).length = (countedChunks chunkSizes).length := by
    intro sizes hle
    rw [List.length_append, List.length_drop, List.takeD_length, ← length_countedChunks]
    omega
  have hrun : Ends (Calls (countedChunks chunkSizes))
      (fun s => s.calls.map CompressCall.part <+: countedChunks chunkSizes ∧
        (∀ call ∈ s.calls, call.outpart ≤ getCompressBound call.part) ∧
        s.sizes.length ≤ (countedChunks chunkSizes).length)
      ((countedChunks chunkSizes).foldlM (compressStep compress inbuf param1 param2 workmem)
        (compressInit outbuf outsize w)) := by
    refine ends_foldlM (fun done s => Calls done s) _ ⟨rfl, by simp [compressInit], rfl⟩ ?_
    intro done part rest s hxs hs
    refine (calls_step compress inbuf param1 param2 workmem hs part).mono (fun _ hs' => hs') ?_
    intro s' hs'
    have hpre : done ++ [part] <+: countedChunks chunkSizes := ⟨rest, by simp [hxs]⟩
    have hle := hpre.length_le
    rw [List.length_append] at hle
    refine ⟨?_, hs'.2.1, by have := hs'.2.2; omega⟩
    rw [hs'.1]
    exact hpre
  have hrule := ends_lzbenchCompress compress inbuf param1 param2 workmem comprSizes
    (P := CallHistory chunkSizes) hrun ?_ ?_
  · exact hrule.ok r h
  · intro s hs
    refine ⟨?_, fun _ => hs.parts, hs.bounds, hlength _ hs.length_eq.le⟩
    exact hs.parts.symm ▸ List.prefix_refl _
  · intro s hs
    exact ⟨hs.1, fun hab => by simp [compressResult] at hab, hs.2.1, hlength _ hs.2.2⟩

/-- What is written by the decoder or copied is a chunk. -/
theorem size_mem_of_mem_writes (decompress : CompressFunc σ) {chunkSizes comprSizes : List ℕ}
    {outbuf : Mem} {w : σ} :
    ∀ write ∈ (lzbenchDecompress decompress inbuf param1 param2 workmem chunkSizes comprSizes outbuf
      w).writes, write.size ∈ chunkSizes.take comprSizes.length := by
  have hentry : ∀ entry ∈ (comprSizes.zip chunkSizes).take (chunkCount comprSizes.length).toNat,
      entry.2 ∈ chunkSizes.take comprSizes.length := by
    intro entry hmem
    have hzip := List.mem_of_mem_take hmem
    rw [List.zip_eq_zip_take_min] at hzip
    have hsecond := (List.of_mem_zip hzip).2
    rwa [← List.take_take, List.take_length] at hsecond
  refine lzbenchDecompress_of_run decompress inbuf param1 param2 workmem
    (I := fun s => ∀ write ∈ s.writes, write.size ∈ chunkSizes.take comprSizes.length)
    (J := fun e => ∀ write ∈ e.2.writes, write.size ∈ chunkSizes.take comprSizes.length)
    (P := fun r => ∀ write ∈ r.writes, write.size ∈ chunkSizes.take comprSizes.length)
    ?_ (fun s hs => hs) fun e he => he
  refine ends_foldlM (fun _ (s : DecompressState σ) =>
    ∀ write ∈ s.writes, write.size ∈ chunkSizes.take comprSizes.length) _
    (by simp [decompressInit]) ?_
  intro done entry rest s hxs hs
  have hsize := hentry entry (by simp [hxs])
  refine ends_decompressStep decompress inbuf param1 param2 workmem rfl ?done ?stop
  case done =>
    intro _
    simp only [DecompressState.advance, DecompressState.wrote, List.forall_mem_append,
      List.forall_mem_singleton]
    exact ⟨hs, hsize⟩
  case stop =>
    intro _
    simp only [DecompressState.wrote, List.forall_mem_append, List.forall_mem_singleton]
    exact ⟨hs, hsize⟩

end Run

/-! ## Sizes that fit -/

/-- A codec that always fails, so that every chunk is stored as it is. -/
def failingCompress : CompressFunc Unit := fun a w => ⟨0, a.outbuf, w⟩

theorem neverExpands_failing : NeverExpands failingCompress := fun _ _ => Int.natCast_nonneg _

/-- The sizes fit exactly if the bound of every chunk that is counted does. -/
theorem sizesFitInt_counted {chunks : List ℕ} {total : ℕ} (hsum : chunks.sum = total)
    (hfits : BoundFits total) :
    SizesFitInt chunks total ↔ ∀ part ∈ countedChunks chunks, WithinInt part := by
  have hpart : ∀ part ∈ countedChunks chunks,
      getCompressBound part = part + part / 6 + padSize := by
    intro part hmem
    have hle := List.single_le_sum (fun _ _ => Nat.zero_le _) part (List.mem_of_mem_take hmem)
    exact getCompressBound_of_fits (hfits.mono (by omega))
  constructor
  · intro hsizes part hmem
    let outsize := UInt64.ofNat (getCompressBound total)
    have hout : outsize.toNat = getCompressBound total :=
      UInt64.toNat_ofNat_of_lt' (getCompressBound_lt _)
    cases hr : lzbenchCompress failingCompress (Mem.ofList []) 0 0 0 chunks [] (Mem.ofList [])
        outsize () with
    | error e =>
      -- the count is negative, and no chunk is counted
      rw [lzbenchCompress] at hr
      split at hr
      · rename_i hneg
        have hnone : (chunkCount chunks.length).toNat = 0 := by omega
        simp [countedChunks, hnone] at hmem
      · cases hr
    | ok r =>
      have hcalls := callHistory_of_ok _ _ _ _ _ hr
      obtain ⟨hunclipped, hab, -⟩ := ((compress_fullHeadroom (Mem.ofList []) neverExpands_failing
        chunks [] (hsum ▸ hfits) (Mem.ofList []) outsize ()).2 r hr).1 (by rw [hout, hsum])
      rw [← hcalls.all hab, List.mem_map] at hmem
      obtain ⟨call, hcall, rfl⟩ := hmem
      have hlt := ((hsizes Unit failingCompress failingCompress (Mem.ofList []) 0 0 0 []
        (Mem.ofList []) outsize () r hout hr).1 call hcall).2
      have hcounted : call.part ∈ countedChunks chunks :=
        hcalls.parts.subset (List.mem_map_of_mem hcall)
      rwa [hunclipped call hcall, hpart _ hcounted] at hlt
  · intro hwithin σ compress decompress inbuf param1 param2 workmem comprSizes outbuf outsize w r
      hout hr
    have hcalls := callHistory_of_ok _ _ _ _ _ hr
    have hchunk : ∀ part ∈ countedChunks chunks,
        part < 2 ^ 31 ∧ getCompressBound part < 2 ^ 31 := by
      intro part hmem
      have hlt : part + part / 6 + padSize < 2 ^ 31 := hwithin part hmem
      rw [hpart part hmem]
      omega
    constructor
    · intro call hcall
      have hmem : call.part ∈ countedChunks chunks :=
        hcalls.parts.subset (List.mem_map_of_mem hcall)
      exact ⟨(hchunk _ hmem).1, (hcalls.bounds call hcall).trans_lt (hchunk _ hmem).2⟩
    · intro decomp w' write hmem _
      have hsize := size_mem_of_mem_writes _ _ _ _ decompress write hmem
      rw [hcalls.length_eq, length_countedChunks] at hsize
      exact (hchunk _ hsize).1

/-- The largest chunk of a file is one of its chunks. -/
theorem withinInt_chunksOf {chunkSize size : ℕ} {group : List ℕ}
    (h : ChunksOf chunkSize size group) :
    (∀ part ∈ group, WithinInt part) ↔ WithinInt (min size chunkSize) := by
  constructor
  · intro hall
    cases group with
    | nil =>
      have hzero : size = 0 := h.sum_eq.symm
      rw [hzero, Nat.zero_min]
      decide
    | cons part rest =>
      refine (hall part (List.mem_cons_self ..)).mono ?_
      have hsum := h.sum_eq
      rw [List.sum_cons] at hsum
      cases rest with
      | nil =>
        rw [List.sum_nil] at hsum
        omega
      | cons part' rest =>
        have hfull := h.full part (by simp)
        omega
  · intro hwithin part hmem
    refine hwithin.mono (Nat.le_min.mpr ⟨?_, (h.size part hmem).2⟩)
    exact h.sum_eq ▸ List.single_le_sum (fun _ _ => Nat.zero_le _) part hmem

theorem withinInt_groups {chunkSize : ℕ} {fileSizes : List ℕ} {groups : List (List ℕ)}
    (h : List.Forall₂ (ChunksOf chunkSize) fileSizes groups) :
    (∀ part ∈ groups.flatten, WithinInt part) ↔
      ∀ size ∈ fileSizes, WithinInt (min size chunkSize) := by
  induction h with
  | nil => simp
  | cons hof _ ih =>
    rw [List.flatten_cons, List.forall_mem_append, List.forall_mem_cons, withinInt_chunksOf hof, ih]

/-- What is handed to the codecs fits exactly if the bound of every counted chunk does; where all
chunks are counted, if that of every file's longest chunk does. -/
theorem sizesFitInt_iff {chunkSize : ℕ} {maxBlockSize : ℤ} {fileSizes chunks : List ℕ}
    (hfits : BoundFits fileSizes.sum)
    (hsplit : splitFiles (effectiveChunkSize chunkSize fileSizes.sum maxBlockSize) fileSizes =
      some chunks) :
    (SizesFitInt chunks fileSizes.sum ↔ ∀ part ∈ countedChunks chunks, WithinInt part) ∧
    (chunks.length < 2 ^ 31 → (SizesFitInt chunks fileSizes.sum ↔
      ∀ size ∈ fileSizes,
        WithinInt (min size (effectiveChunkSize chunkSize fileSizes.sum maxBlockSize)))) := by
  have hiff := sizesFitInt_counted (splitFiles_some hsplit).1 hfits
  refine ⟨hiff, ?_⟩
  intro hlen
  obtain ⟨groups, rfl, hgroups⟩ := splitFiles_grouped hsplit
  rw [hiff, countedChunks_eq hlen, withinInt_groups hgroups]

/-- The default chunk size is small enough. -/
theorem withinInt_default {part : ℕ} (h : part ≤ defaultParams.chunkSize) : WithinInt part :=
  WithinInt.mono (by decide : WithinInt defaultParams.chunkSize) h

/-- A file that is cut into itself. -/
theorem splitFiles_one {chunkSize size : ℕ} (hpos : 0 < size) (hle : size ≤ chunkSize) :
    splitFiles (effectiveChunkSize chunkSize [size].sum 0) [size] = some [size] := by
  have hcap : effectiveChunkSize chunkSize [size].sum 0 = size := by
    rw [List.sum_singleton, effectiveChunkSize]
    simp only [ne_eq, not_true_eq_false, false_and, if_false]
    split <;> omega
  rw [hcap, splitFiles, splitFile_of_le hpos le_rfl]
  rfl

/-- A file of a gigabyte, with the default chunk size. -/
theorem sizesFitInt_gigabyte : SizesFitInt [2 ^ 30] [2 ^ 30].sum := by
  have hsplit := splitFiles_one (by decide : 0 < 2 ^ 30)
    (by decide : 2 ^ 30 ≤ defaultParams.chunkSize)
  refine (sizesFitInt_iff (by decide) hsplit).1.mpr ?_
  intro part hmem
  have hsize := (splitFiles_some hsplit).2 part (List.mem_of_mem_take hmem)
  exact withinInt_default (hsize.2.trans (effectiveChunkSize_le _).1)

/-- `-b2097152` makes one chunk of a file of two gigabytes. -/
theorem not_sizesFitInt :
    ¬ ∀ args r, readOptions defaultOptions args = .ok r → ∀ (maxBlockSize : ℤ)
      (fileSizes chunks : List ℕ), BoundFits fileSizes.sum →
      splitFiles (effectiveChunkSize r.1.params.chunkSize fileSizes.sum maxBlockSize) fileSizes =
        some chunks → SizesFitInt chunks fileSizes.sum := by
  intro hall
  have hread : readOptions defaultOptions ["-b2097152", "data"] =
      .ok ({ defaultOptions with params := { defaultParams with chunkSize := 2 ^ 31 } },
        ["data"]) := by decide
  have hfit := hall _ _ hread 0 [2 ^ 31] [2 ^ 31] (by decide)
    (splitFiles_one (by decide : 0 < 2 ^ 31) le_rfl)
  have hpart := (sizesFitInt_counted rfl (by decide)).mp hfit (2 ^ 31) (by simp [countedChunks,
    chunkCount_of_lt (by decide : 1 < 2 ^ 31)])
  exact absurd hpart (by decide)

end Lzbench
