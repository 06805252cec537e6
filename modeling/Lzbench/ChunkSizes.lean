import Lzbench.Join

/-!
# Files and their chunks

The chunks that `lzbench_test` makes are grouped by file: no chunk holds bytes of two files, and
only the last one of a file is shorter than the chunk size.  That chunk size is what `init`
gets, and all later loops go over the same chunks.

## Main definitions

* `ChunksOf` — the chunks of one file.
* `splitFiles_groups` — every file has its group.
* `lzbenchTest_chunks` — the chunks of a run.
-/

namespace Lzbench

open Imperative

/-- The chunks of one file: all of it, and all but the last of full size. -/
structure ChunksOf (chunkSize size : ℕ) (group : List ℕ) : Prop where
  sum_eq : group.sum = size
  full : ∀ c ∈ group.dropLast, c = chunkSize
  size : ∀ c ∈ group, 0 < c ∧ c ≤ chunkSize

variable {chunkSize : ℕ}

/-- A round that is not the last takes a whole chunk. -/
theorem splitLoop_full {fuel tmpsize : ℕ} {chunks : List ℕ}
    (h : splitLoop chunkSize fuel tmpsize = some chunks) :
    ∀ c ∈ chunks.dropLast, c = chunkSize := by
  induction fuel generalizing tmpsize chunks with
  | zero =>
    obtain rfl : [] = chunks := by
      simp only [splitLoop] at h
      split at h
      · cases h
      · exact Option.some.inj h
    simp
  | succ fuel ih =>
    rw [splitLoop] at h
    split at h
    · rename_i hpos
      obtain ⟨rest, hrest, rfl⟩ := Option.map_eq_some_iff.mp h
      cases rest with
      | nil => simp
      | cons c' rest =>
        -- something is left, so this round has not taken all
        have hleft : tmpsize - min tmpsize chunkSize ≠ 0 := by
          intro hzero
          rw [hzero] at hrest
          cases fuel <;> cases hrest
        intro c hc
        rw [List.dropLast_cons_of_ne_nil (List.cons_ne_nil _ _)] at hc
        cases List.mem_cons.mp hc with
        | inl heq => omega
        | inr hmem => exact ih hrest c hmem
    · cases h
      simp

theorem splitFile_chunksOf (hchunk : 0 < chunkSize) (size : ℕ) :
    ∃ group, splitFile chunkSize size = some group ∧ ChunksOf chunkSize size group := by
  obtain ⟨group, hgroup, hsum, hsize⟩ := splitLoop_spec hchunk size size le_rfl
  exact ⟨group, hgroup, hsum, splitLoop_full hgroup, hsize⟩

/-- Every file has its group. -/
theorem splitFiles_groups (hchunk : 0 < chunkSize) (fileSizes : List ℕ) :
    ∃ groups : List (List ℕ), splitFiles chunkSize fileSizes = some groups.flatten ∧
      List.Forall₂ (ChunksOf chunkSize) fileSizes groups := by
  induction fileSizes with
  | nil => exact ⟨[], rfl, .nil⟩
  | cons size rest ih =>
    obtain ⟨group, hgroup, hof⟩ := splitFile_chunksOf hchunk size
    obtain ⟨groups, hgroups, hall⟩ := ih
    refine ⟨group :: groups, ?_, .cons hof hall⟩
    rw [splitFiles, hgroup, hgroups]
    rfl

/-- Files without bytes have no chunks, whatever the chunk size. -/
theorem splitFiles_empty {fileSizes : List ℕ} (hsum : fileSizes.sum = 0) :
    ∃ groups : List (List ℕ), splitFiles chunkSize fileSizes = some groups.flatten ∧
      List.Forall₂ (ChunksOf chunkSize) fileSizes groups := by
  induction fileSizes with
  | nil => exact ⟨[], rfl, .nil⟩
  | cons size rest ih =>
    rw [List.sum_cons] at hsum
    obtain rfl : size = 0 := by omega
    obtain ⟨groups, hgroups, hall⟩ := ih (by omega)
    have hnone : ChunksOf chunkSize 0 [] := ⟨rfl, by simp, by simp⟩
    refine ⟨[] :: groups, ?_, .cons hnone hall⟩
    rw [splitFiles, splitFile_zero, hgroups]
    rfl

/-- Loops that ended have left groups. -/
theorem splitFiles_grouped {fileSizes chunks : List ℕ}
    (h : splitFiles chunkSize fileSizes = some chunks) :
    ∃ groups : List (List ℕ), groups.flatten = chunks ∧
      List.Forall₂ (ChunksOf chunkSize) fileSizes groups := by
  obtain ⟨groups, hgroups, hall⟩ : ∃ groups : List (List ℕ),
      splitFiles chunkSize fileSizes = some groups.flatten ∧
        List.Forall₂ (ChunksOf chunkSize) fileSizes groups := by
    rcases Nat.eq_zero_or_pos chunkSize with hzero | hpos
    · obtain ⟨hsum, hsize⟩ := splitFiles_some h
      have hnone : chunks = [] := by
        refine List.eq_nil_iff_forall_not_mem.mpr ?_
        intro c hc
        have hrange := hsize c hc
        omega
      rw [hnone, List.sum_nil] at hsum
      exact splitFiles_empty hsum.symm
    · exact splitFiles_groups hpos fileSizes
  exact ⟨groups, Option.some.inj (hgroups.symm.trans h), hall⟩

/-- The groups are cut out of the total. -/
theorem sum_flatten_groups {fileSizes : List ℕ} {groups : List (List ℕ)}
    (h : List.Forall₂ (ChunksOf chunkSize) fileSizes groups) :
    groups.flatten.sum = fileSizes.sum := by
  induction h with
  | nil => rfl
  | cons hof _ ih => rw [List.flatten_cons, List.sum_append, List.sum_cons, hof.sum_eq, ih]

theorem mem_flatten_groups {fileSizes : List ℕ} {groups : List (List ℕ)}
    (h : List.Forall₂ (ChunksOf chunkSize) fileSizes groups) :
    ∀ c ∈ groups.flatten, 0 < c ∧ c ≤ chunkSize := by
  induction h with
  | nil => simp
  | cons hof _ ih =>
    rw [List.flatten_cons, List.forall_mem_append]
    exact ⟨hof.size, ih⟩

/-- Both caps. -/
theorem effectiveChunkSize_le (insize : ℕ) {maxBlockSize : ℤ} :
    effectiveChunkSize chunkSize insize maxBlockSize ≤ chunkSize ∧
      (maxBlockSize ≠ 0 →
        effectiveChunkSize chunkSize insize maxBlockSize ≤ toSize maxBlockSize) := by
  simp only [effectiveChunkSize]
  split_ifs <;> grind

section Run

variable {σ : Type} {env : Env σ} {params : LzbenchParams} {fileSizes : List ℕ}
  {desc : CompressorDesc σ} {insize : ℕ}

/-- In a run the chunks are grouped by file, each group all of its file, in chunks of the size
that `init` gets except for the last; none is empty, and none is longer. -/
theorem lzbenchTest_chunks (hsum : fileSizes.sum = insize) (hchunk : 1 ≤ params.chunkSize)
    (hmax : 0 ≤ desc.maxBlockSize ∧ desc.maxBlockSize < 2 ^ 31) :
    ∃ (size : ℕ) (groups : List (List ℕ)),
      size ≤ params.chunkSize ∧ (desc.maxBlockSize ≠ 0 → (size : ℤ) ≤ desc.maxBlockSize) ∧
      List.Forall₂ (ChunksOf size) fileSizes groups ∧
      (∀ c ∈ groups.flatten, 0 < c ∧ c ≤ size) ∧ groups.flatten.sum = insize ∧
      ∀ compress decompress, desc.compress = some compress → desc.decompress = some decompress →
        ∀ (level : ℤ) (inbuf : Mem) (comprsize : UInt64) (param1 fuel : ℕ) (compbuf decomp : Mem)
          (w : σ),
          lzbenchTest env params fileSizes desc level inbuf insize comprsize param1 fuel compbuf
            decomp w =
          (let param2 := toSize desc.additionalParam
          let workmem := initWorkmem desc size param1 param2 w
          let tried := tryCspeed env params compress size inbuf param1 param2 workmem.1 compbuf
            workmem.2
          if tried.1 then
            .ok (unreported params tried.2.1 decomp (deinitWorkmem desc workmem.1 tried.2.2))
          else
            measure env params desc level compress decompress inbuf insize comprsize param1 param2
              workmem.1 groups.flatten fuel tried.2.1 decomp tried.2.2) := by
  have htoSize : toSize desc.maxBlockSize = desc.maxBlockSize.toNat :=
    toSize_of_nonneg hmax.1 (by omega)
  obtain ⟨groups, hsplit, hall⟩ : ∃ groups : List (List ℕ),
      splitFiles (effectiveChunkSize params.chunkSize insize desc.maxBlockSize) fileSizes =
        some groups.flatten ∧
      List.Forall₂ (ChunksOf (effectiveChunkSize params.chunkSize insize desc.maxBlockSize))
        fileSizes groups := by
    rcases Nat.eq_zero_or_pos insize with hzero | hpos
    · exact splitFiles_empty (hsum.trans hzero)
    · exact splitFiles_groups (effectiveChunkSize_pos hchunk (by omega) hpos) fileSizes
  obtain ⟨hle, hblock⟩ := effectiveChunkSize_le insize
  refine ⟨effectiveChunkSize params.chunkSize insize desc.maxBlockSize, groups, hle, ?_, hall,
    mem_flatten_groups hall, (sum_flatten_groups hall).trans hsum, ?_⟩
  · intro hne
    have hcap := hblock hne
    omega
  · intro compress decompress hc hd level inbuf comprsize param1 fuel compbuf decomp w
    simp only [lzbenchTest, hc, hd, hsplit]

/-- Three files, one of them empty, in blocks of four bytes. -/
theorem lzbenchTest_chunks_plain :
    ∃ (size : ℕ) (groups : List (List ℕ)),
      size ≤ 4 ∧ List.Forall₂ (ChunksOf size) [5, 0, 8] groups ∧ groups.flatten.sum = 13 := by
  obtain ⟨size, groups, -, hblock, hall, -, hsum, -⟩ :=
    @lzbenchTest_chunks ℕ FilesRun.plainEnv (FilesRun.plainParams 1024) [5, 0, 8]
      (FilesRun.plainDesc (fun _ => 1) 4) 13 rfl (by decide) (by decide)
  have hle : (size : ℤ) ≤ 4 := hblock (by decide)
  exact ⟨size, groups, by omega, hall, hsum⟩

end Run

end Lzbench
