import Mathlib.Algebra.BigOperators.Ring.List
import Lzbench.ChunkSizes
import Lzbench.Lib.CString
import Lzbench.Lib.Segments

/-!
# What a failed verification writes down

With enough verbosity a run that finds a wrong byte writes a part of its input to a file, and
exits.  The part is meant to be the chunk that failed, and is made of the position of the first
wrong byte by rounding it down to the chunk size.  Chunks are cut file by file, though, so behind
a file with a short last chunk they do not begin where the rounding has them.

## Main definitions

* `common` — the length of what two buffers have in common at their beginning.
* `dumpFailure` — what is written.
* `ShowsFailedChunk` — it is the chunk that failed.
* `InPlace` — the chunk with a position is where a single file would have it.
* `showsFailedChunk_iff`, `forall_showsFailedChunk_iff` — when the chunk is shown.
* `lzbenchTest_exit` — the buffers that a run exits with.
-/

namespace Lzbench

open Imperative

/-! ## The dump -/

/-- `common`, which is left at the first difference only. -/
def common (p1 p2 : Mem) (fuel : ℕ) : Option ℕ :=
  whileDo (fun size => p1 size = p2 size) (· + 1) fuel 0

/-- What is left of a run before `exit(1)`: a line, and the file `text` with `bytes`, which are
those of the input in `extent`. -/
structure FailureDump where
  printed : Printf
  text : Text
  extent : Segment
  bytes : List UInt8

/-- `text`, of at most 255 bytes. -/
def failedName (name : String) : Text := (utf8 s!"{name}_failed").take 255

/-- The `printf` and the `fwrite` for a part of the input. -/
def writeFailed (name : String) (inbuf : Mem) (extent : Segment) : FailureDump where
  printed := ⟨"ERROR: fwrite %d-%d to %s\n",
    [.num (some (toInt32 extent.start)), .num (some (toInt32 (addSize extent.start extent.length))),
      .str (failedName name)]⟩
  text := failedName name
  extent := extent
  bytes := inbuf.bytes extent.start extent.length

/-- What a run does when `memcmp` finds a difference, for `verbose >= 10`. -/
def dumpFailure (name : String) (inbuf : Mem) (insize chunkSize : ℕ) (decomp : Mem) (fuel : ℕ) :
    Except Stop FailureDump :=
  match common inbuf decomp fuel with
  | none => .error .hang
  | some cmn =>
    if chunkSize = 0 then .error .undefined
    else
      let cmn := cmn / chunkSize
      let errSize := min insize (toSize ((cmn + 1) * chunkSize : ℕ))
      let errSize := subSize errSize (toSize (cmn * chunkSize : ℕ))
      .ok (writeFailed name inbuf ⟨toSize (cmn * chunkSize : ℕ), errSize⟩)

/-- `common` ends at the first difference, which it needs no bound for. -/
theorem common_eq {p1 p2 : Mem} {p fuel : ℕ} (h : Mem.FirstDifference p1 p2 p) (hfuel : p ≤ fuel) :
    common p1 p2 fuel = some p := by
  have hround : ∀ size ≤ p, decide (p1 size = p2 size) = true →
      size + 1 ≤ p ∧ p - (size + 1) < p - size := by
    intro size hle hsame
    have hne : size ≠ p := by
      rintro rfl
      exact h.ne (of_decide_eq_true hsame)
    omega
  obtain ⟨size, hle, hend, hrun⟩ := total_whileDo (fun size => p - size) hround (Nat.zero_le p)
  have heq : size = p := by
    by_contra hne
    have hsame := h.agree size (by omega)
    rw [Nat.zero_add] at hsame
    simp [hsame] at hend
  rw [common, hrun fuel hfuel, heq]

/-- The part of the input that the position is rounded to. -/
def roundedExtent (insize chunkSize p : ℕ) : Segment :=
  ⟨p / chunkSize * chunkSize,
    min insize (p / chunkSize * chunkSize + chunkSize) - p / chunkSize * chunkSize⟩

theorem dumpFailure_eq (name : String) {inbuf decomp : Mem} {insize chunkSize p fuel : ℕ}
    (h : Mem.FirstDifference inbuf decomp p) (hp : p < insize) (hchunk : 0 < chunkSize)
    (hsize : insize + chunkSize ≤ 2 ^ 64) (hfuel : p ≤ fuel) :
    dumpFailure name inbuf insize chunkSize decomp fuel =
      .ok (writeFailed name inbuf (roundedExtent insize chunkSize p)) := by
  have hround : p / chunkSize * chunkSize ≤ p := Nat.div_mul_le_self p chunkSize
  have hnext : (p / chunkSize + 1) * chunkSize = p / chunkSize * chunkSize + chunkSize :=
    Nat.succ_mul _ _
  simp only [dumpFailure, common_eq h hfuel, if_neg hchunk.ne', hnext]
  rw [toSize_ofNat (by omega), toSize_ofNat (by omega), subSize_of_le (by omega) (by omega)]
  rfl

/-! ## The chunk that failed -/

section Chunk

variable {chunkSize p : ℕ}

/-- The chunk of a single file. -/
theorem segmentAt_chunksOf {size : ℕ} {group : List ℕ} (h : ChunksOf chunkSize size group)
    (hp : p < size) :
    segmentAt group p = some ⟨p / chunkSize * chunkSize,
      min chunkSize (size - p / chunkSize * chunkSize)⟩ := by
  induction group generalizing size p with
  | nil =>
    have hzero : size = 0 := h.sum_eq.symm
    omega
  | cons c rest ih =>
    have hc := h.size c (List.mem_cons_self ..)
    have hsum := h.sum_eq
    rw [List.sum_cons] at hsum
    by_cases hfirst : p < c
    · have hzero : p / chunkSize = 0 := Nat.div_eq_of_lt (by omega)
      have hlength : min chunkSize (size - 0) = c := by
        cases rest with
        | nil =>
          rw [List.sum_nil] at hsum
          omega
        | cons c' rest =>
          have hfull := h.full c (by simp)
          omega
      rw [segmentAt_of_lt hfirst, hzero, Nat.zero_mul, hlength]
    · -- a chunk with another one behind it is full
      cases rest with
      | nil =>
        rw [List.sum_nil] at hsum
        omega
      | cons c' rest =>
        obtain rfl : c = chunkSize := h.full c (by simp)
        have hle := Nat.le_of_not_lt hfirst
        have htail : ChunksOf c (size - c) (c' :: rest) := by
          refine ⟨by omega, fun x hx => h.full x ?_, fun x hx => h.size x ?_⟩
          · rw [List.dropLast_cons_of_ne_nil (List.cons_ne_nil _ _)]
            exact List.mem_cons_of_mem c hx
          · exact List.mem_cons_of_mem c hx
        have hdiv : p / c = (p - c) / c + 1 := Nat.div_eq_sub_div hc.1 hle
        have hnext : ((p - c) / c + 1) * c = (p - c) / c * c + c := Nat.succ_mul _ _
        rw [segmentAt_of_le hle, ih htail (by omega), hdiv, hnext, Option.map_some, Segment.shift]
        congr 2
        · exact Nat.add_comm _ _
        · rw [Nat.sub_sub, Nat.add_comm c]

/-- The chunk of several. -/
theorem segmentAt_groups {fileSizes : List ℕ} {groups : List (List ℕ)} {file : Segment}
    (h : List.Forall₂ (ChunksOf chunkSize) fileSizes groups)
    (hfile : segmentAt fileSizes p = some file) :
    segmentAt groups.flatten p = some
      ⟨file.start + (p - file.start) / chunkSize * chunkSize,
        min chunkSize (file.length - (p - file.start) / chunkSize * chunkSize)⟩ := by
  obtain ⟨hle, hlt, -⟩ := segmentAt_bounds hfile
  obtain ⟨group, hgroup, heq⟩ := segmentAt_flatten h (fun _ _ hof => hof.sum_eq) hfile
  rw [heq, segmentAt_chunksOf hgroup (by omega)]
  rfl

/-- The file with the position starts at a multiple of the chunk size, and is the last one with
bytes, or the chunk with the position is a full one. -/
def InPlace (chunkSize : ℕ) (fileSizes : List ℕ) (p : ℕ) : Prop :=
  ∃ file ∈ segmentAt fileSizes p, chunkSize ∣ file.start ∧
    (file.start + file.length = fileSizes.sum ∨
      ((p - file.start) / chunkSize + 1) * chunkSize ≤ file.length)

instance (chunkSize : ℕ) (fileSizes : List ℕ) (p : ℕ) :
    Decidable (InPlace chunkSize fileSizes p) :=
  inferInstanceAs (Decidable (∃ file ∈ segmentAt fileSizes p, _))

/-- Rounding in a file is rounding in all files exactly if the file starts at a multiple. -/
theorem add_rounded_eq_iff (hchunk : 0 < chunkSize) (start off : ℕ) :
    start + off / chunkSize * chunkSize = (start + off) / chunkSize * chunkSize ↔
      chunkSize ∣ start := by
  constructor
  · intro heq
    have hall : chunkSize ∣ start + off / chunkSize * chunkSize := by
      rw [heq]
      exact Nat.dvd_mul_left _ _
    exact (Nat.dvd_add_left (Nat.dvd_mul_left _ _)).mp hall
  · rintro ⟨k, rfl⟩
    rw [Nat.mul_add_div hchunk, Nat.add_mul, Nat.mul_comm chunkSize k]

/-- The rounded part is the chunk exactly if that is in place. -/
theorem segmentAt_rounded_iff {fileSizes : List ℕ} {groups : List (List ℕ)}
    (h : List.Forall₂ (ChunksOf chunkSize) fileSizes groups) (hchunk : 0 < chunkSize)
    (hp : p < fileSizes.sum) :
    segmentAt groups.flatten p = some (roundedExtent fileSizes.sum chunkSize p) ↔
      InPlace chunkSize fileSizes p := by
  obtain ⟨file, hfile⟩ := exists_segmentAt hp
  obtain ⟨hle, hlt, htotal⟩ := segmentAt_bounds hfile
  obtain ⟨off, rfl⟩ := Nat.exists_eq_add_of_le hle
  have hstart := add_rounded_eq_iff hchunk file.start off
  have hround : off / chunkSize * chunkSize ≤ off := Nat.div_mul_le_self off chunkSize
  have hnext : (off / chunkSize + 1) * chunkSize = off / chunkSize * chunkSize + chunkSize :=
    Nat.succ_mul _ _
  rw [segmentAt_groups h hfile, InPlace, hfile, Nat.add_sub_cancel_left, Option.some.injEq,
    roundedExtent, Segment.mk.injEq, hstart]
  simp only [Option.mem_some_iff, exists_eq_left', Nat.add_sub_cancel_left, hnext]
  refine and_congr_right fun hdvd => ?_
  rw [← hstart.mpr hdvd]
  generalize off / chunkSize * chunkSize = start at *
  omega

/-- With every chunk in place, what has bytes behind it is a multiple of the chunk size. -/
theorem dvd_sum_of_inPlace {front rest : List ℕ}
    (hall : ∀ p < (front ++ rest).sum, InPlace chunkSize (front ++ rest) p)
    (hrest : 0 < rest.sum) : chunkSize ∣ front.sum := by
  obtain ⟨file, hfile, hdvd, -⟩ := hall front.sum (by simpa using hrest)
  -- the first byte of the rest is the first one of its file
  obtain ⟨next, hnext⟩ := exists_segmentAt hrest
  have hzero : next.start = 0 := Nat.le_zero.mp (segmentAt_bounds hnext).1
  rw [segmentAt_append_right le_rfl, Nat.sub_self, hnext] at hfile
  obtain rfl := Option.some.inj hfile
  rwa [Segment.shift, hzero, Nat.add_zero] at hdvd

/-- Every chunk is in place exactly if files with bytes behind them are made of full chunks. -/
theorem forall_inPlace_iff {fileSizes : List ℕ} :
    (∀ p < fileSizes.sum, InPlace chunkSize fileSizes p) ↔
      ∀ before size after, fileSizes = before ++ size :: after → 0 < after.sum →
        chunkSize ∣ size := by
  constructor
  · rintro hall before size after rfl hafter
    have hfront := dvd_sum_of_inPlace hall (by rw [List.sum_cons]; omega)
    rw [List.append_cons] at hall
    have hback := dvd_sum_of_inPlace hall hafter
    rw [List.sum_append, List.sum_singleton] at hback
    exact (Nat.dvd_add_right hfront).mp hback
  · intro hfull p hp
    obtain ⟨file, hfile⟩ := exists_segmentAt hp
    obtain ⟨before, after, hfiles, hstart, hle, hlt⟩ := segmentAt_eq_some_iff.mp hfile
    refine ⟨file, hfile, ?_, ?_⟩
    · rw [← hstart]
      refine List.dvd_sum fun size hsize => ?_
      obtain ⟨first, last, rfl⟩ := List.append_of_mem hsize
      refine hfull first size (last ++ file.length :: after) (by simpa using hfiles) ?_
      rw [List.sum_append, List.sum_cons]
      omega
    · rcases Nat.eq_zero_or_pos after.sum with hzero | hpos
      · left
        rw [hfiles, List.sum_append, List.sum_cons, hstart, hzero, Nat.add_zero]
      · right
        obtain ⟨k, hk⟩ := hfull before file.length after hfiles hpos
        have hlast : (p - file.start) / chunkSize < k := Nat.div_lt_of_lt_mul (by omega)
        rw [hk, Nat.mul_comm chunkSize k]
        exact Nat.mul_le_mul_right chunkSize hlast

end Chunk

/-- What is written for the two buffers, of which the first is the input, is the chunk that
failed: `common` finds the first wrong byte, and the dump is of the chunk with it. -/
def ShowsFailedChunk (name : String) (inbuf : Mem) (fileSizes : List ℕ) (chunkSize : ℕ)
    (decomp : Mem) : Prop :=
  ∃ p chunks chunk, Mem.FirstDifference inbuf decomp p ∧ p < fileSizes.sum ∧
    splitFiles chunkSize fileSizes = some chunks ∧ segmentAt chunks p = some chunk ∧
    ∀ fuel, p ≤ fuel → common inbuf decomp fuel = some p ∧
      dumpFailure name inbuf fileSizes.sum chunkSize decomp fuel =
        .ok (writeFailed name inbuf chunk)

section Shown

variable {fileSizes : List ℕ} {inbuf decomp : Mem}

/-- For buffers that differ first at a position. -/
theorem showsFailedChunk_iff_inPlace (name : String) {size p : ℕ} (hsize : 0 < size)
    (hfit : fileSizes.sum + size ≤ 2 ^ 64) (hfirst : Mem.FirstDifference inbuf decomp p)
    (hp : p < fileSizes.sum) :
    ShowsFailedChunk name inbuf fileSizes size decomp ↔ InPlace size fileSizes p := by
  obtain ⟨groups, hsplit, hgroups⟩ := splitFiles_groups hsize fileSizes
  rw [← segmentAt_rounded_iff hgroups hsize hp]
  constructor
  · rintro ⟨q, chunks, chunk, hq, -, hchunks, hfailed, hdump⟩
    obtain rfl := hfirst.unique hq
    obtain rfl := Option.some.inj (hsplit.symm.trans hchunks)
    have hsame := (dumpFailure_eq name hfirst hp hsize hfit le_rfl).symm.trans (hdump p le_rfl).2
    have hextent : roundedExtent fileSizes.sum size p = chunk :=
      congrArg FailureDump.extent (Except.ok.inj hsame)
    rw [hfailed, hextent]
  · intro hfailed
    exact ⟨p, groups.flatten, roundedExtent fileSizes.sum size p, hfirst, hp, hsplit, hfailed,
      fun fuel hfuel =>
        ⟨common_eq hfirst hfuel, dumpFailure_eq name hfirst hp hsize hfit hfuel⟩⟩

/-- With some input, the chunk size of a run can be divided by, and rounding up does not
overflow. -/
theorem effectiveChunkSize_fits {chunkSize : ℕ} {maxBlockSize : ℤ} (hchunk : 1 ≤ chunkSize)
    (hblock : IsInt maxBlockSize) {insize : ℕ} (hmax : insize ≤ ptrdiffMax) (hpos : 0 < insize) :
    0 < effectiveChunkSize chunkSize insize maxBlockSize ∧
      insize + effectiveChunkSize chunkSize insize maxBlockSize ≤ 2 ^ 64 := by
  have hle : effectiveChunkSize chunkSize insize maxBlockSize ≤ insize :=
    (effectiveChunkSize_of_le le_rfl).trans_le (Nat.min_le_right ..)
  simp only [ptrdiffMax] at hmax
  exact ⟨effectiveChunkSize_pos hchunk (toSize_pos_of_isInt hblock) hpos, by omega⟩

/-- The position is always that of the first wrong byte; the chunk that failed is what is written
exactly if it is in place. -/
theorem showsFailedChunk_iff (name : String) {chunkSize : ℕ} {maxBlockSize : ℤ}
    {fileSizes : List ℕ} {inbuf decomp : Mem} (hchunk : 1 ≤ chunkSize)
    (hblock : IsInt maxBlockSize) (hmax : fileSizes.sum ≤ ptrdiffMax)
    (hdiff : ¬ Mem.SameBytes inbuf 0 decomp 0 fileSizes.sum) :
    let size := effectiveChunkSize chunkSize fileSizes.sum maxBlockSize
    (∃ p < fileSizes.sum, Mem.FirstDifference inbuf decomp p ∧
      ∀ fuel, p ≤ fuel → common inbuf decomp fuel = some p) ∧
    (ShowsFailedChunk name inbuf fileSizes size decomp ↔
      ∃ p, Mem.FirstDifference inbuf decomp p ∧ InPlace size fileSizes p) := by
  intro size
  obtain ⟨p, hp, hfirst⟩ := Mem.exists_firstDifference hdiff
  obtain ⟨hsize, hfit⟩ := effectiveChunkSize_fits hchunk hblock hmax (Nat.zero_lt_of_lt hp)
  refine ⟨⟨p, hp, hfirst, fun fuel hfuel => common_eq hfirst hfuel⟩, ?_⟩
  rw [showsFailedChunk_iff_inPlace name hsize hfit hfirst hp]
  constructor
  · intro hplace
    exact ⟨p, hfirst, hplace⟩
  · rintro ⟨q, hq, hplace⟩
    rwa [hfirst.unique hq]

/-- A wrong byte in the last of three files, of which the others are made of full chunks. -/
theorem showsFailedChunk_last :
    ShowsFailedChunk "memcpy" (fun _ => 0) [4, 8, 5] 4 (fun p => if p = 13 then 1 else 0) := by
  have hfirst : Mem.FirstDifference (fun _ => 0) (fun p => if p = 13 then 1 else 0) 13 :=
    ⟨fun i hi => by rw [Nat.zero_add, if_neg hi.ne], by decide⟩
  obtain ⟨-, hiff⟩ := @showsFailedChunk_iff "memcpy" 4 0 [4, 8, 5] (fun _ => 0)
    (fun p => if p = 13 then 1 else 0) (by decide) ⟨by decide, by decide⟩ (by decide) (by decide)
  exact hiff.mpr ⟨13, hfirst, by decide⟩

/-- A wrong byte in the first of two files, both of which a chunk has room for: the dump is of
both files. -/
theorem not_showsFailedChunk_joined :
    ¬ Mem.SameBytes (fun _ => 0) 0 (fun _ => 1) 0 13 ∧
    splitFiles (effectiveChunkSize 1024 13 0) [5, 8] = some [5, 8] ∧
    segmentAt [5, 8] 0 = some ⟨0, 5⟩ ∧
    dumpFailure "memcpy" (fun _ => 0) 13 (effectiveChunkSize 1024 13 0) (fun _ => 1) 0 =
      .ok (writeFailed "memcpy" (fun _ => 0) ⟨0, 13⟩) ∧
    ¬ ShowsFailedChunk "memcpy" (fun _ => 0) [5, 8] (effectiveChunkSize 1024 13 0)
      (fun _ => 1) := by
  have hfirst : Mem.FirstDifference (fun _ => 0) (fun _ => 1) 0 :=
    ⟨fun i hi => (Nat.not_lt_zero i hi).elim, by decide⟩
  have hsplit : splitFiles (effectiveChunkSize 1024 13 0) [5, 8] = some [5, 8] := by decide
  have hdump : dumpFailure "memcpy" (fun _ => 0) 13 (effectiveChunkSize 1024 13 0) (fun _ => 1) 0 =
      .ok (writeFailed "memcpy" (fun _ => 0) ⟨0, 13⟩) :=
    dumpFailure_eq "memcpy" hfirst (by decide) (by decide) (by decide) le_rfl
  refine ⟨by decide, hsplit, by decide, hdump, ?_⟩
  rintro ⟨p, chunks, chunk, hp, -, hchunks, hfailed, hwritten⟩
  obtain rfl := hp.unique hfirst
  obtain rfl := Option.some.inj (hsplit.symm.trans hchunks)
  obtain rfl : ⟨0, 5⟩ = chunk := Option.some.inj hfailed
  have hextent := congrArg FailureDump.extent
    (Except.ok.inj (hdump.symm.trans (hwritten 0 le_rfl).2))
  exact absurd hextent (by decide)

/-- Whatever the wrong byte is, it is the chunk that failed that is written, exactly if files with
bytes behind them are made of full chunks. -/
theorem forall_showsFailedChunk_iff (name : String) (inbuf : Mem) {size : ℕ} (hsize : 0 < size)
    (hfit : fileSizes.sum + size ≤ 2 ^ 64) :
    (∀ decomp, ¬ Mem.SameBytes inbuf 0 decomp 0 fileSizes.sum →
      ShowsFailedChunk name inbuf fileSizes size decomp) ↔
    ∀ before length after, fileSizes = before ++ length :: after → 0 < after.sum →
      size ∣ length := by
  rw [← forall_inPlace_iff]
  constructor
  · intro hall p hp
    -- one wrong byte is enough
    let decomp : Mem := Function.update inbuf p (inbuf p + 1)
    have hne : inbuf p ≠ decomp p := by simp [decomp]
    have hfirst : Mem.FirstDifference inbuf decomp p := by
      refine ⟨fun i hi => ?_, hne⟩
      rw [Nat.zero_add]
      exact (Function.update_of_ne hi.ne _ _).symm
    rw [← showsFailedChunk_iff_inPlace name hsize hfit hfirst hp]
    refine hall decomp fun hsame => hne ?_
    have hbyte := hsame p hp
    rwa [Nat.zero_add] at hbyte
  · intro hplace decomp hdiff
    obtain ⟨p, hp, hfirst⟩ := Mem.exists_firstDifference hdiff
    exact (showsFailedChunk_iff_inPlace name hsize hfit hfirst hp).mpr (hplace p hp)

end Shown

/-! ## In a run -/

section Run

variable {σ : Type} {env : Env σ} {params : LzbenchParams} {inbuf : Mem} {insize : ℕ}
  {param1 : ℕ}

/-- Only a wrong byte makes the decompression exit, and only with enough verbosity. -/
theorem decompressPhase_exit {param2 workmem : ℕ} {chunkSizes comprSizes : List ℕ}
    {decompress : CompressFunc σ} {compbuf : Mem} {fuel : ℕ} {s d : DecompressPhase σ}
    (h : decompressPhase env params inbuf insize param1 param2 workmem chunkSizes decompress
      comprSizes compbuf fuel s = .error (.exitFailure, d)) :
    10 ≤ params.verbose ∧ ¬ Mem.SameBytes inbuf 0 d.decomp 0 insize := by
  let E : Stop × DecompressPhase σ → Prop := fun e => e.1 = .exitFailure →
    10 ≤ params.verbose ∧ ¬ Mem.SameBytes inbuf 0 e.2.decomp 0 insize
  have hrule : Ends (fun _ => True) E (decompressPhase env params inbuf insize param1 param2
      workmem chunkSizes decompress comprSizes compbuf fuel s) := by
    refine ends_doWhile_of_body (I := fun _ => True) (fun _ _ hexit => nomatch hexit)
      (fun s _ => ?_) fuel trivial
    have hinner : Ends (fun _ => True) E (doWhile (fun s => (.hang, s))
        (fun s => .ok (decompressIter env param1 param2 workmem chunkSizes decompress comprSizes
          compbuf s))
        (fun s => s.laps.nanosec < params.dloopTime) fuel (decompressStart env s)) :=
      ends_doWhile_of_body (I := fun _ => True) (fun _ _ hexit => nomatch hexit)
        (fun s _ => (ends_ok _ E _).mpr ⟨trivial, trivial⟩) fuel trivial
    apply hinner.bind
    intro s _
    refine ⟨fun _ _ => ⟨trivial, trivial⟩, fun e hfin _ => ?_⟩
    simp only [decompressFinish] at hfin
    split at hfin
    · rename_i hwrong
      obtain rfl := Except.error.inj hfin
      exact ⟨hwrong.2, of_decide_eq_true hwrong.1⟩
    · split at hfin <;> cases hfin
  exact hrule.error _ h rfl

/-- The compression does not exit. -/
theorem compressPhase_ne_exit {param2 workmem : ℕ} {chunkSizes : List ℕ}
    {compress : CompressFunc σ} {comprsize : UInt64} {fuel : ℕ} {s : CompressPhase σ} {e : Stop}
    (h : compressPhase env params inbuf insize param1 param2 workmem chunkSizes compress comprsize
      fuel s = .error (.stop e)) : e ≠ .exitFailure := by
  have hrule : Ends (fun _ => True) (fun e => e ≠ CompressExit.stop .exitFailure)
      (compressPhase env params inbuf insize param1 param2 workmem chunkSizes compress comprsize
        fuel s) := by
    refine ends_compressPhase (I := fun _ => True) (J := fun _ => True) (K := fun _ => True)
      (fun hexit => nomatch hexit) (fun s e _ hthrow hexit => ?_) (fun _ _ => trivial)
      (fun _ _ _ _ => trivial) (fun _ _ _ hexit => nomatch hexit) (fun _ _ => ⟨trivial, trivial⟩)
      fuel trivial
    rw [lzbenchCompress] at hthrow
    split at hthrow
    · cases hthrow
      cases hexit
    · cases hthrow
  rintro rfl
  exact hrule.error _ h rfl

section Exit

variable {fileSizes : List ℕ} {desc : CompressorDesc σ} {level : ℤ} {comprsize : UInt64}
  {fuel : ℕ} {compbuf decomp : Mem} {w : σ} {f : Fault}

/-- Of the two phases the decompression is the one that exits. -/
theorem measure_exit {compress decompress : CompressFunc σ} {workmem : ℕ} {chunks : List ℕ}
    (h : measure env params desc level compress decompress inbuf insize comprsize param1
      (toSize desc.additionalParam) workmem chunks fuel compbuf decomp w = .error f)
    (hexit : f.stop = .exitFailure) :
    ∃ (c : CompressPhase σ) (d : DecompressPhase σ),
      decompressPhase env params inbuf insize param1 (toSize desc.additionalParam) workmem chunks
        decompress c.comprSizes c.compbuf fuel (decompressPhaseInit env decomp c.world) =
          .error (.exitFailure, d) := by
  let E : Fault → Prop := fun f => f.stop = .exitFailure →
    ∃ (c : CompressPhase σ) (d : DecompressPhase σ),
      decompressPhase env params inbuf insize param1 (toSize desc.additionalParam) workmem chunks
        decompress c.comprSizes c.compbuf fuel (decompressPhaseInit env decomp c.world) =
          .error (.exitFailure, d)
  have hrule : Ends (fun _ => True) E (measure env params desc level compress decompress inbuf
      insize comprsize param1 (toSize desc.additionalParam) workmem chunks fuel compbuf decomp
      w) := by
    refine ends_measure (fun _ _ _ => trivial) (fun _ _ _ => trivial)
      (fun e he hstop => absurd hstop (compressPhase_ne_exit he)) (fun c e d hd hstop => ?_)
    obtain rfl : e = .exitFailure := hstop
    exact ⟨c, d, hd⟩
  exact hrule.error f h hexit

/-- A run that exits is left in its decompression. -/
theorem exists_decompressPhase_exit
    (hrun : lzbenchTest env params fileSizes desc level inbuf insize comprsize param1 fuel compbuf
      decomp w = .error f) (hexit : f.stop = .exitFailure) :
    ∃ decompress workmem chunks, ∃ (c : CompressPhase σ) (d : DecompressPhase σ),
      desc.decompress = some decompress ∧
      splitFiles (effectiveChunkSize params.chunkSize insize desc.maxBlockSize) fileSizes =
        some chunks ∧
      decompressPhase env params inbuf insize param1 (toSize desc.additionalParam) workmem chunks
        decompress c.comprSizes c.compbuf fuel (decompressPhaseInit env decomp c.world) =
          .error (.exitFailure, d) := by
  simp only [lzbenchTest] at hrun
  split at hrun
  · rename_i compress decompress _ hdecompress
    split at hrun
    · cases hrun
    · split at hrun
      · cases hrun
        cases hexit
      · rename_i chunks hsplit
        obtain ⟨c, d, hd⟩ := measure_exit hrun hexit
        exact ⟨decompress, _, chunks, c, d, hdecompress, hsplit, hd⟩
  · cases hrun

/-- A run exits with a wrong byte in the output of a round, and with the dump that the position
of that byte is rounded to. -/
theorem lzbenchTest_exit (hchunk : 1 ≤ params.chunkSize) (hblock : IsInt desc.maxBlockSize)
    (hmax : fileSizes.sum ≤ ptrdiffMax)
    (hrun : lzbenchTest env params fileSizes desc level inbuf fileSizes.sum comprsize param1 fuel
      compbuf decomp w = .error f) (hexit : f.stop = .exitFailure) :
    let size := effectiveChunkSize params.chunkSize fileSizes.sum desc.maxBlockSize
    10 ≤ params.verbose ∧
    ∃ decompress workmem chunks p, ∃ (c : CompressPhase σ) (d : DecompressPhase σ),
      desc.decompress = some decompress ∧ splitFiles size fileSizes = some chunks ∧
      decompressPhase env params inbuf fileSizes.sum param1 (toSize desc.additionalParam) workmem
        chunks decompress c.comprSizes c.compbuf fuel (decompressPhaseInit env decomp c.world) =
          .error (.exitFailure, d) ∧
      p < fileSizes.sum ∧ Mem.FirstDifference inbuf d.decomp p ∧
      (∀ fuel, p ≤ fuel → dumpFailure desc.name inbuf fileSizes.sum size d.decomp fuel =
        .ok (writeFailed desc.name inbuf (roundedExtent fileSizes.sum size p))) ∧
      (ShowsFailedChunk desc.name inbuf fileSizes size d.decomp ↔ InPlace size fileSizes p) := by
  intro size
  obtain ⟨decompress, workmem, chunks, c, d, hdecompress, hsplit, hphase⟩ :=
    exists_decompressPhase_exit hrun hexit
  obtain ⟨hverbose, hdiff⟩ := decompressPhase_exit hphase
  obtain ⟨p, hp, hfirst⟩ := Mem.exists_firstDifference hdiff
  obtain ⟨hsize, hfit⟩ := effectiveChunkSize_fits hchunk hblock hmax (Nat.zero_lt_of_lt hp)
  exact ⟨hverbose, decompress, workmem, chunks, p, c, d, hdecompress, hsplit, hphase, hp, hfirst,
    fun fuel hfuel => dumpFailure_eq desc.name hfirst hp hsize hfit hfuel,
    showsFailedChunk_iff_inPlace desc.name hsize hfit hfirst hp⟩

end Exit

end Run

end Lzbench
