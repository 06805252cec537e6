import Lzbench.Compress

/-!
# The decompression loop over the stored chunks

`lzbench_decompress` walks the stored sizes: a chunk whose stored size is its own size
was stored raw and is copied, any other is handed to the decoder.  The loop stops at
the first result that is not positive and returns it; otherwise it returns the sum of
the results, by which the output pointer also moves.

## Main definitions

* `decompressStep`, `lzbenchDecompress` — one chunk, and the whole loop.
-/

namespace Lzbench

open Imperative

variable {σ : Type}

/-- One write into the output buffer, as the history keeps it: a raw copy or a decoder
call, with the region it was given and the buffer before and after it. -/
structure Write where
  raw : Bool
  outpos : ℕ
  size : ℕ
  before : Mem
  after : Mem

/-- The variables of the loop; `writes` is history that no branch reads. -/
structure DecompressState (σ : Type) where
  inpos : ℕ
  outpos : ℕ
  sum : ℕ
  outbuf : Mem
  world : σ
  writes : List Write

namespace DecompressState

/-- The state after a chunk of `size` bytes was written with the result `r`. -/
def wrote (s : DecompressState σ) (raw : Bool) (size : ℕ) (r : CodecResult σ) :
    DecompressState σ :=
  { s with
    outbuf := r.out
    world := r.world
    writes := s.writes ++ [⟨raw, s.outpos, size, s.outbuf, r.out⟩] }

/-- The pointer moves at the end of the loop body. -/
def advance (s : DecompressState σ) (part dlen : ℕ) : DecompressState σ :=
  { s with inpos := s.inpos + part, outpos := s.outpos + dlen, sum := addSize s.sum dlen }

end DecompressState

/-- The result of `lzbench_decompress`; `writes` is history. -/
structure DecompressResult (σ : Type) where
  ret : ℤ
  outbuf : Mem
  world : σ
  writes : List Write

section Loop

variable (decompress : CompressFunc σ) (inbuf : Mem) (param1 param2 workmem : ℕ)

/-- The arguments of the decoder call on a chunk of `part` stored bytes. -/
def decompressArgs (s : DecompressState σ) (part chunk : ℕ) : CodecArgs :=
  ⟨inbuf, s.inpos, part, s.outbuf, s.outpos, chunk, param1, param2, workmem⟩

/-- What one chunk is turned into: a raw copy, or what the decoder makes of it. -/
def decompressChunk (s : DecompressState σ) (part chunk : ℕ) : CodecResult σ :=
  if part = chunk then
    ⟨toInt64 part, s.outbuf.copy s.outpos inbuf s.inpos part, s.world⟩
  else decompress (decompressArgs inbuf param1 param2 workmem s part chunk) s.world

/-- The body of the loop on the stored size and the size of a chunk.  The error is
the early return. -/
def decompressStep (s : DecompressState σ) (entry : ℕ × ℕ) :
    Except (ℤ × DecompressState σ) (DecompressState σ) :=
  let r := decompressChunk decompress inbuf param1 param2 workmem s entry.1 entry.2
  let s' := s.wrote (entry.1 = entry.2) entry.2 r
  if r.ret ≤ 0 then .error (r.ret, s') else .ok (s'.advance entry.1 (toSize r.ret))

/-- The state before the first chunk. -/
def decompressInit (outbuf : Mem) (w : σ) : DecompressState σ := ⟨0, 0, 0, outbuf, w, []⟩

/-- How the loop's last state is returned. -/
def decompressResult :
    Except (ℤ × DecompressState σ) (DecompressState σ) → DecompressResult σ
  | .ok s => ⟨toInt64 s.sum, s.outbuf, s.world, s.writes⟩
  | .error (dlen, s) => ⟨dlen, s.outbuf, s.world, s.writes⟩

/-- `lzbench_decompress`. -/
def lzbenchDecompress (chunkSizes comprSizes : List ℕ) (outbuf : Mem) (w : σ) :
    DecompressResult σ :=
  let cscount := chunkCount comprSizes.length
  decompressResult (((comprSizes.zip chunkSizes).take cscount.toNat).foldlM
    (decompressStep decompress inbuf param1 param2 workmem) (decompressInit outbuf w))

/-- The rule of one step: the chunk's result ends the loop, or moves the pointers. -/
theorem ends_decompressStep {s : DecompressState σ} {entry : ℕ × ℕ}
    {P : DecompressState σ → Prop} {E : ℤ × DecompressState σ → Prop} {r : CodecResult σ}
    (hr : r = decompressChunk decompress inbuf param1 param2 workmem s entry.1 entry.2)
    (hdone : 0 < r.ret →
      P ((s.wrote (entry.1 = entry.2) entry.2 r).advance entry.1 (toSize r.ret)))
    (hstop : r.ret ≤ 0 → E (r.ret, s.wrote (entry.1 = entry.2) entry.2 r)) :
    Ends P E (decompressStep decompress inbuf param1 param2 workmem s entry) := by
  simp only [decompressStep, ← hr]
  by_cases hle : r.ret ≤ 0
  · rw [if_pos hle]
    exact (ends_error P E _).mpr (hstop hle)
  · rw [if_neg hle]
    exact (ends_ok P E _).mpr (hdone (by omega))

/-- The rule of the whole call, from a rule of its loop. -/
theorem lzbenchDecompress_of_run {chunkSizes comprSizes : List ℕ} {outbuf : Mem} {w : σ}
    {I : DecompressState σ → Prop} {J : ℤ × DecompressState σ → Prop}
    {P : DecompressResult σ → Prop}
    (hrun : Ends I J (((comprSizes.zip chunkSizes).take
        (chunkCount comprSizes.length).toNat).foldlM
      (decompressStep decompress inbuf param1 param2 workmem) (decompressInit outbuf w)))
    (hok : ∀ s, I s → P (decompressResult (.ok s)))
    (hstop : ∀ e, J e → P (decompressResult (.error e))) :
    P (lzbenchDecompress decompress inbuf param1 param2 workmem chunkSizes comprSizes outbuf
      w) := by
  simp only [lzbenchDecompress]
  cases hfold : ((comprSizes.zip chunkSizes).take (chunkCount comprSizes.length).toNat).foldlM
      (decompressStep decompress inbuf param1 param2 workmem) (decompressInit outbuf w) with
  | ok s => exact hok s (hrun.ok s hfold)
  | error e => exact hstop e (hrun.error e hfold)

end Loop

end Lzbench
