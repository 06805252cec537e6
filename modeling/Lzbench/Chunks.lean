import Lzbench.Basic
import Mathlib.Algebra.BigOperators.Group.List.Basic

/-!
# Splitting the files into chunks

`lzbench_test` caps the chunk size by the input and by the compressor's block size,
then cuts every file into chunks of that size, the last one of a file shorter.  The
loop over one file ends because each round takes at least one byte, which holds
unless the chunk size is zero.

## Main definitions

* `effectiveChunkSize` — the two caps.
* `splitFile`, `splitFiles` — the inner and the outer loop; `none` when the inner
  loop does not end.
-/

namespace Lzbench

open Imperative

/-- `chunk_size` of `lzbench_test`, after both caps. -/
def effectiveChunkSize (chunkSize insize : ℕ) (maxBlockSize : ℤ) : ℕ :=
  let size := if chunkSize > insize then insize else chunkSize
  if maxBlockSize ≠ 0 ∧ size > toSize maxBlockSize then toSize maxBlockSize else size

/-- `while (tmpsize > 0)`, for at most `fuel` rounds. -/
def splitLoop (chunkSize : ℕ) : ℕ → ℕ → Option (List ℕ)
  | 0, tmpsize => if tmpsize > 0 then none else some []
  | fuel + 1, tmpsize =>
    if tmpsize > 0 then
      (splitLoop chunkSize fuel (tmpsize - min tmpsize chunkSize)).map
        (min tmpsize chunkSize :: ·)
    else some []

/-- The chunks of one file.  A loop that ends takes at most one round a byte. -/
def splitFile (chunkSize size : ℕ) : Option (List ℕ) := splitLoop chunkSize size size

/-- `chunk_sizes`, for the whole list of files. -/
def splitFiles (chunkSize : ℕ) : List ℕ → Option (List ℕ)
  | [] => some []
  | size :: rest => do
    let chunks ← splitFile chunkSize size
    let others ← splitFiles chunkSize rest
    some (chunks ++ others)

/-- The fuel of `splitFile` is enough. -/
theorem splitLoop_spec {chunkSize : ℕ} (hchunk : 0 < chunkSize) (fuel tmpsize : ℕ)
    (hfuel : tmpsize ≤ fuel) :
    ∃ chunks, splitLoop chunkSize fuel tmpsize = some chunks ∧ chunks.sum = tmpsize ∧
      ∀ c ∈ chunks, 0 < c ∧ c ≤ chunkSize := by
  induction fuel generalizing tmpsize with
  | zero =>
    have h0 : tmpsize = 0 := by omega
    exact ⟨[], by simp [splitLoop, h0]⟩
  | succ fuel ih =>
    by_cases hpos : tmpsize > 0
    · obtain ⟨chunks, heq, hsum, hall⟩ := ih (tmpsize - min tmpsize chunkSize) (by omega)
      refine ⟨min tmpsize chunkSize :: chunks, ?_, ?_, ?_⟩
      · rw [splitLoop, if_pos hpos, heq]
        rfl
      · rw [List.sum_cons, hsum]
        omega
      · intro c hc
        rcases List.mem_cons.mp hc with rfl | hc
        · omega
        · exact hall c hc
    · have h0 : tmpsize = 0 := by omega
      exact ⟨[], by simp [splitLoop, h0]⟩

/-- A file that fits one chunk is one chunk. -/
theorem splitFile_of_le {chunkSize size : ℕ} (hpos : 0 < size) (hle : size ≤ chunkSize) :
    splitFile chunkSize size = some [size] := by
  obtain ⟨n, rfl⟩ : ∃ n, size = n + 1 := ⟨size - 1, by omega⟩
  have hmin : min (n + 1) chunkSize = n + 1 := by omega
  rw [splitFile, splitLoop, if_pos (by omega), hmin, Nat.sub_self]
  cases n <;> simp [splitLoop]

@[simp] theorem splitFile_zero (chunkSize : ℕ) : splitFile chunkSize 0 = some [] := rfl

/-- With a positive chunk size the files are cut up completely. -/
theorem splitFiles_spec {chunkSize : ℕ} (hchunk : 0 < chunkSize) (fileSizes : List ℕ) :
    ∃ chunks, splitFiles chunkSize fileSizes = some chunks ∧
      chunks.sum = fileSizes.sum ∧ ∀ c ∈ chunks, 0 < c ∧ c ≤ chunkSize := by
  induction fileSizes with
  | nil => exact ⟨[], by simp [splitFiles]⟩
  | cons size rest ih =>
    obtain ⟨chunks, heq, hsum, hall⟩ := splitLoop_spec hchunk size size le_rfl
    obtain ⟨others, heq', hsum', hall'⟩ := ih
    refine ⟨chunks ++ others, ?_, ?_, ?_⟩
    · simp [splitFiles, splitFile, heq, heq']
    · rw [List.sum_append, hsum, hsum', List.sum_cons]
    · intro c hc
      cases List.mem_append.mp hc with
      | inl hc =>
        exact hall c hc
      | inr hc =>
        exact hall' c hc

/-- No loop that ended has cut off an empty chunk: a zero chunk size ends only on
empty files. -/
theorem splitLoop_zero (fuel tmpsize : ℕ) :
    splitLoop 0 fuel tmpsize = if tmpsize > 0 then none else some [] := by
  induction fuel generalizing tmpsize with
  | zero => rfl
  | succ fuel ih =>
    rw [splitLoop, Nat.min_zero, Nat.sub_zero, ih]
    split <;> simp_all

/-- What the loops leave when they end, for any chunk size. -/
theorem splitFiles_some {chunkSize : ℕ} {fileSizes chunks : List ℕ}
    (h : splitFiles chunkSize fileSizes = some chunks) :
    chunks.sum = fileSizes.sum ∧ ∀ c ∈ chunks, 0 < c ∧ c ≤ chunkSize := by
  rcases Nat.eq_zero_or_pos chunkSize with rfl | hchunk
  · induction fileSizes generalizing chunks with
    | nil =>
      obtain rfl : [] = chunks := by simpa [splitFiles] using h
      simp
    | cons size rest ih =>
      rcases Nat.eq_zero_or_pos size with rfl | hsize
      · have hrest : splitFiles 0 rest = some chunks := by
          simpa [splitFiles, Option.bind_eq_some_iff] using h
        simpa using ih hrest
      · simp [splitFiles, splitFile, splitLoop_zero, hsize] at h
  · obtain ⟨chunks', heq, hsum, hall⟩ := splitFiles_spec hchunk fileSizes
    rw [heq, Option.some.injEq] at h
    exact h ▸ ⟨hsum, hall⟩

end Lzbench
