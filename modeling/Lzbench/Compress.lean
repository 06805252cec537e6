import Lzbench.Codec
import Lzbench.Lib.Loop
import Mathlib.Data.List.TakeDrop

/-!
# The compression loop over a list of chunks

`lzbench_compress` hands the chunks to the codec one after the other, stores a chunk
raw when the codec fails on it or returns exactly its size, and leaves through
`return 0` when a raw chunk does not fit.  Four offsets move together: the input and
output pointers, the room left in the output, and the sum that is returned.

The chunk count passes through an `int`.  A list of at least `2 ^ 31` chunks either
gives a negative count, for which `resize` throws, or a count that is too small.

## Main definitions

* `chunkCount` — `cscount`.
* `compressStep`, `lzbenchCompress` — one chunk, and the whole loop.
* `Accounts` — the four offsets agree with the sizes stored so far.
-/

namespace Lzbench

open Imperative

variable {σ : Type}

/-- `int cscount = chunk_sizes.size()`. -/
def chunkCount (n : ℕ) : ℤ := toInt32 n

theorem chunkCount_of_lt {n : ℕ} (h : n < 2 ^ 31) : chunkCount n = n := toInt32_ofNat h

theorem chunkCount_le (n : ℕ) : (chunkCount n).toNat ≤ n := by
  have h := (toInt32_ofNat_le n).1
  simp only [chunkCount]
  omega

theorem chunkCount_lt (n : ℕ) : chunkCount n < 2 ^ 31 := (toInt32_ofNat_le n).2

/-- A list too long for an `int` count is never counted in full. -/
theorem chunkCount_lt_of_ge {n : ℕ} (h : 2 ^ 31 ≤ n) : (chunkCount n).toNat < n := by
  have hlt := chunkCount_lt n
  omega

/-- A list short enough is processed to its end. -/
theorem take_chunkCount {chunks : List ℕ} (h : chunks.length < 2 ^ 31) :
    chunks.take (chunkCount chunks.length).toNat = chunks := by
  rw [chunkCount_of_lt h, Int.toNat_natCast, List.take_length]

/-- One call of the compressor, as the history keeps it; `room` is `outsize` at the
call. -/
structure CompressCall where
  part : ℕ
  room : ℕ
  outpart : ℕ
  clen : ℤ
  deriving DecidableEq, Repr

/-- The variables of the loop.  `sizes` is `compr_sizes[0..i)`; `calls` is history
that no branch reads. -/
structure CompressState (σ : Type) where
  inpos : ℕ
  outpos : ℕ
  outsize : ℕ
  sum : ℕ
  sizes : List ℕ
  outbuf : Mem
  world : σ
  calls : List CompressCall

namespace CompressState

/-- The state after the codec returned `r` for a chunk. -/
def called (s : CompressState σ) (part outpart : ℕ) (r : CodecResult σ) : CompressState σ :=
  { s with
    outbuf := r.out
    world := r.world
    calls := s.calls ++ [⟨part, s.outsize, outpart, r.ret⟩] }

/-- `memcpy(outbuf, inbuf, part)`. -/
def copyRaw (s : CompressState σ) (inbuf : Mem) (part : ℕ) : CompressState σ :=
  { s with outbuf := s.outbuf.copy s.outpos inbuf s.inpos part }

/-- The pointer moves at the end of the loop body, with the chunk's stored size. -/
def store (s : CompressState σ) (part clen : ℕ) : CompressState σ :=
  { s with
    inpos := s.inpos + part
    outpos := s.outpos + clen
    outsize := subSize s.outsize clen
    sum := addSize s.sum clen
    sizes := s.sizes ++ [clen] }

end CompressState

section Loop

variable (compress : CompressFunc σ) (inbuf : Mem) (param1 param2 workmem : ℕ)

/-- `outpart`: the bound of the chunk, clipped by the room left. -/
def outpart (s : CompressState σ) (part : ℕ) : ℕ := min (getCompressBound part) s.outsize

/-- The arguments of the codec call on a chunk. -/
def compressArgs (s : CompressState σ) (part : ℕ) : CodecArgs :=
  ⟨inbuf, s.inpos, part, s.outbuf, s.outpos, outpart s part, param1, param2, workmem⟩

/-- The body of the loop.  The error is the state in which `return 0` is taken. -/
def compressStep (s : CompressState σ) (part : ℕ) :
    Except (CompressState σ) (CompressState σ) :=
  let r := compress (compressArgs inbuf param1 param2 workmem s part) s.world
  let s' := s.called part (outpart s part) r
  if r.ret ≤ 0 ∨ toSize r.ret = part then
    if part > s.outsize then .error s'
    else .ok ((s'.copyRaw inbuf part).store part part)
  else .ok (s'.store part (toSize r.ret))

/-- The state before the first chunk. -/
def compressInit (outbuf : Mem) (outsize : UInt64) (w : σ) : CompressState σ :=
  ⟨0, 0, outsize.toNat, 0, [], outbuf, w, []⟩

/-- The result of `lzbench_compress`.  `aborted` tells the two returns apart, which
the returned number does not always; it and `calls` are history. -/
structure CompressResult (σ : Type) where
  ret : ℤ
  comprSizes : List ℕ
  outbuf : Mem
  world : σ
  aborted : Bool
  calls : List CompressCall

/-- How the loop's last state is returned; `resized` is `compr_sizes` after the
`resize`, whose entries past the last stored chunk keep their value. -/
def compressResult (resized : List ℕ) :
    Except (CompressState σ) (CompressState σ) → CompressResult σ
  | .ok s => ⟨toInt64 s.sum, s.sizes ++ resized.drop s.sizes.length, s.outbuf, s.world,
      false, s.calls⟩
  | .error s => ⟨0, s.sizes ++ resized.drop s.sizes.length, s.outbuf, s.world, true, s.calls⟩

/-- `lzbench_compress`. -/
def lzbenchCompress (chunkSizes comprSizes : List ℕ) (outbuf : Mem) (outsize : UInt64)
    (w : σ) : Except Stop (CompressResult σ) :=
  let cscount := chunkCount chunkSizes.length
  if cscount < 0 then .error .lengthError
  else
    .ok (compressResult (comprSizes.takeD cscount.toNat 0)
      ((chunkSizes.take cscount.toNat).foldlM
        (compressStep compress inbuf param1 param2 workmem) (compressInit outbuf outsize w)))

/-- The rule of one step: the chunk is stored raw, stored coded, or does not fit. -/
theorem ends_compressStep {s : CompressState σ} {part : ℕ}
    {P : CompressState σ → Prop} {E : CompressState σ → Prop} {r : CodecResult σ}
    (hr : r = compress (compressArgs inbuf param1 param2 workmem s part) s.world)
    (hraw : r.ret ≤ 0 ∨ toSize r.ret = part → part ≤ s.outsize →
      P (((s.called part (outpart s part) r).copyRaw inbuf part).store part part))
    (hcoded : 0 < r.ret → toSize r.ret ≠ part →
      P ((s.called part (outpart s part) r).store part (toSize r.ret)))
    (habort : r.ret ≤ 0 ∨ toSize r.ret = part → s.outsize < part →
      E (s.called part (outpart s part) r)) :
    Ends P E (compressStep compress inbuf param1 param2 workmem s part) := by
  simp only [compressStep, ← hr]
  by_cases hc : r.ret ≤ 0 ∨ toSize r.ret = part
  · rw [if_pos hc]
    by_cases hp : part > s.outsize
    · rw [if_pos hp]
      exact (ends_error P E _).mpr (habort hc hp)
    · rw [if_neg hp]
      exact (ends_ok P E _).mpr (hraw hc (by omega))
  · rw [if_neg hc]
    rw [not_or] at hc
    exact (ends_ok P E _).mpr (hcoded (by omega) hc.2)

/-- The rule of the whole call, from a rule of its loop: what holds at both ways out
of the loop holds of the result, and only a negative count throws. -/
theorem ends_lzbenchCompress {chunkSizes : List ℕ} (comprSizes : List ℕ) {outbuf : Mem}
    {outsize : UInt64} {w : σ} {I J : CompressState σ → Prop} {P : CompressResult σ → Prop}
    (hrun : Ends I J ((chunkSizes.take (chunkCount chunkSizes.length).toNat).foldlM
      (compressStep compress inbuf param1 param2 workmem) (compressInit outbuf outsize w)))
    (hok : ∀ s, I s → P (compressResult (comprSizes.takeD
      (chunkCount chunkSizes.length).toNat 0) (.ok s)))
    (hret0 : ∀ s, J s → P (compressResult (comprSizes.takeD
      (chunkCount chunkSizes.length).toNat 0) (.error s))) :
    Ends P (fun e => e = Stop.lengthError ∧ chunkCount chunkSizes.length < 0)
      (lzbenchCompress compress inbuf param1 param2 workmem chunkSizes comprSizes outbuf
        outsize w) := by
  rw [lzbenchCompress]
  by_cases hneg : chunkCount chunkSizes.length < 0
  · rw [if_pos hneg]
    exact (ends_error P _ _).mpr ⟨rfl, hneg⟩
  · rw [if_neg hneg]
    refine (ends_ok P _ _).mpr ?_
    cases hfold : (chunkSizes.take (chunkCount chunkSizes.length).toNat).foldlM
        (compressStep compress inbuf param1 param2 workmem) (compressInit outbuf outsize w) with
    | ok s => exact hok s (hrun.ok s hfold)
    | error s => exact hret0 s (hrun.error s hfold)

/-- The same rule for a list short enough to be counted, on what the call returns. -/
theorem lzbenchCompress_ok {chunkSizes : List ℕ} (hlen : chunkSizes.length < 2 ^ 31)
    {comprSizes : List ℕ} {outbuf : Mem} {outsize : UInt64} {w : σ} {r : CompressResult σ}
    (hr : lzbenchCompress compress inbuf param1 param2 workmem chunkSizes comprSizes outbuf
      outsize w = .ok r)
    {I J : CompressState σ → Prop} {P : CompressResult σ → Prop}
    (hrun : Ends I J (chunkSizes.foldlM (compressStep compress inbuf param1 param2 workmem)
      (compressInit outbuf outsize w)))
    (hok : ∀ s, I s → P (compressResult (comprSizes.takeD chunkSizes.length 0) (.ok s)))
    (hret0 : ∀ s, J s → P (compressResult (comprSizes.takeD chunkSizes.length 0) (.error s))) :
    P r := by
  have hcount : (chunkCount chunkSizes.length).toNat = chunkSizes.length := by
    rw [chunkCount_of_lt hlen, Int.toNat_natCast]
  have hrule := ends_lzbenchCompress compress inbuf param1 param2 workmem comprSizes (P := P)
    (I := I) (J := J) (by rw [take_chunkCount hlen]; exact hrun)
    (by rw [hcount]; exact hok) (by rw [hcount]; exact hret0)
  exact hrule.ok r hr

/-- A list short enough for the `int` count never throws. -/
theorem lzbenchCompress_returns {chunkSizes : List ℕ} (hlen : chunkSizes.length < 2 ^ 31)
    (comprSizes : List ℕ) (outbuf : Mem) (outsize : UInt64) (w : σ) :
    ∃ r, lzbenchCompress compress inbuf param1 param2 workmem chunkSizes comprSizes outbuf
      outsize w = .ok r := by
  have hcount : ¬ chunkCount chunkSizes.length < 0 := by
    rw [chunkCount_of_lt hlen]
    omega
  rw [lzbenchCompress, if_neg hcount]
  exact ⟨_, rfl⟩

end Loop

/-- The parts of a total around one chunk. -/
theorem sum_around (sizes : List ℕ) {i : ℕ} (hi : i < sizes.length) :
    sizes.sum = (sizes.take i).sum + sizes.getD i 0 + (sizes.drop (i + 1)).sum := by
  have hsplit : sizes.drop i = sizes.getD i 0 :: sizes.drop (i + 1) := by
    rw [List.getD_eq_getElem _ _ hi, List.drop_eq_getElem_cons hi]
  have hsum : sizes.sum = (sizes.take i).sum + (sizes.drop i).sum := by
    rw [← List.sum_append, List.take_append_drop]
  rw [hsum, hsplit, List.sum_cons, Nat.add_assoc]

/-- Once every chunk is stored nothing is left of the vector's earlier entries. -/
theorem stored_append_drop {sizes comprSizes : List ℕ} {n : ℕ} (h : sizes.length = n) :
    sizes ++ (comprSizes.takeD n 0).drop sizes.length = sizes := by
  rw [List.drop_of_length_le (by rw [List.takeD_length, h]), List.append_nil]

/-- After the chunks `done`, starting with room for `cap` bytes, the offsets agree
with the stored sizes and nothing has wrapped. -/
structure Accounts (cap : ℕ) (done : List ℕ) (s : CompressState σ) : Prop where
  inpos_eq : s.inpos = done.sum
  length_eq : s.sizes.length = done.length
  outpos_eq : s.outpos = s.sizes.sum
  sum_eq : s.sum = s.sizes.sum
  room_eq : s.outsize + s.sizes.sum = cap

namespace Accounts

variable {cap : ℕ} {done : List ℕ} {s : CompressState σ}

theorem init (outbuf : Mem) (outsize : UInt64) (w : σ) :
    Accounts outsize.toNat [] (compressInit outbuf outsize w) := by
  constructor <;> simp [compressInit]

/-- Neither the codec call nor a raw copy moves an offset. -/
theorem called (h : Accounts cap done s) (part outpart : ℕ) (r : CodecResult σ) :
    Accounts cap done (s.called part outpart r) :=
  ⟨h.inpos_eq, h.length_eq, h.outpos_eq, h.sum_eq, h.room_eq⟩

theorem copyRaw (h : Accounts cap done s) (inbuf : Mem) (part : ℕ) :
    Accounts cap done (s.copyRaw inbuf part) :=
  ⟨h.inpos_eq, h.length_eq, h.outpos_eq, h.sum_eq, h.room_eq⟩

/-- A stored size that fits the room left keeps the accounts. -/
theorem store (h : Accounts cap done s) (hcap : cap < 2 ^ 64) {part clen : ℕ}
    (hfit : clen ≤ s.outsize) : Accounts cap (done ++ [part]) (s.store part clen) := by
  have hroom : s.outsize + s.sizes.sum = cap := h.room_eq
  have hsum : s.sum = s.sizes.sum := h.sum_eq
  constructor
  · simp [CompressState.store, h.inpos_eq]
  · simp [CompressState.store, h.length_eq]
  · simp [CompressState.store, h.outpos_eq]
  · have hadd : addSize s.sizes.sum clen = s.sizes.sum + clen := addSize_of_lt (by omega)
    simp only [CompressState.store, hsum, hadd, List.sum_append, List.sum_singleton]
  · have hsub : subSize s.outsize clen = s.outsize - clen := subSize_of_le hfit (by omega)
    simp only [CompressState.store, hsub, List.sum_append, List.sum_singleton]
    omega

end Accounts

/-- A positive result converts to `size_t` unchanged when it fits the room left. -/
theorem toSize_clen {compress : CompressFunc σ} {a : CodecArgs} {w : σ} (room : ℕ)
    (hroom : room < 2 ^ 64) (hpos : 0 < (compress a w).ret)
    (hle : (compress a w).ret ≤ room) :
    toSize (compress a w).ret = (compress a w).ret.toNat ∧
      toSize (compress a w).ret ≤ room := by
  have h := toSize_of_nonneg hpos.le (by omega)
  omega

end Lzbench
