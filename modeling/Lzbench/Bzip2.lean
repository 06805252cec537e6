import Lzbench.Compress
import Lzbench.Decompress

/-!
# Failures of bzip2 in the two loops

The wrappers of `bzip2` report a failure as `-1`, in a conditional expression whose other
branch is `unsigned`.  The usual conversions make the result `unsigned` as well, so the
64-bit result of a failing call is `2 ^ 32 - 1`, a success to both loops.

`BZ2_bzBuffToBuffCompress` and `BZ2_bzBuffToBuffDecompress` are translated over the stream
functions of the library, which are a parameter; a call succeeds with a length or fails.

## Main definitions

* `lzbenchBzip2Compress`, `lzbenchBzip2Decompress` — the wrappers.
* `Follows` — the calls have given outcomes.
* `FallsBack`, `StopsAtFailure` — what is asked of the two loops.
* `bzip2_fallsBack_iff` — when they do it.
-/

namespace Lzbench

open Imperative

variable {σ : Type}

/-! ## The library -/

/-- The codes of `bzlib.h` that are used here. -/
def bzOk : ℤ := 0
def bzFinishOk : ℤ := 3
def bzStreamEnd : ℤ := 4
def bzParamError : ℤ := -2
def bzUnexpectedEof : ℤ := -7
def bzOutbuffFull : ℤ := -8

/-- What a run of a stream leaves: its status, `avail_out`, and the bytes written. -/
structure BzStream (σ : Type) where
  ret : ℤ
  availOut : ℕ
  out : Patch
  world : σ

/-- The stream functions.  A run is given the source and `avail_out`, which it lowers by
what it writes. -/
structure Bzlib (σ : Type) where
  compressInit : ℤ → ℤ → ℤ → σ → ℤ × σ
  compress : List UInt8 → ℕ → σ → BzStream σ
  compressEnd : σ → σ
  decompressInit : ℤ → ℤ → σ → ℤ × σ
  decompress : List UInt8 → ℕ → σ → BzStream σ
  decompressEnd : σ → σ
  compress_within : ∀ source n w, (compress source n w).availOut ≤ n ∧
    (compress source n w).out.Within n
  decompress_within : ∀ source n w, (decompress source n w).availOut ≤ n ∧
    (decompress source n w).out.Within n

/-- What a call from buffer to buffer leaves; `destLen` is `*destLen`. -/
structure BzResult (σ : Type) where
  ret : ℤ
  destLen : ℕ
  out : Patch
  world : σ

/-- `BZ2_bzBuffToBuffCompress`, on buffers that are not `NULL`. -/
def bz2BuffToBuffCompress (lib : Bzlib σ) (destLen : ℕ) (source : List UInt8)
    (blockSize100k verbosity workFactor : ℤ) (w : σ) : BzResult σ :=
  if blockSize100k < 1 ∨ blockSize100k > 9 ∨ verbosity < 0 ∨ verbosity > 4 ∨ workFactor < 0 ∨
      workFactor > 250 then
    ⟨bzParamError, destLen, fun _ => none, w⟩
  else
    let init := lib.compressInit blockSize100k verbosity (if workFactor = 0 then 30 else workFactor)
      w
    if init.1 ≠ bzOk then ⟨init.1, destLen, fun _ => none, init.2⟩
    else
      let strm := lib.compress source destLen init.2
      if strm.ret = bzFinishOk then ⟨bzOutbuffFull, destLen, strm.out, lib.compressEnd strm.world⟩
      else if strm.ret ≠ bzStreamEnd then
        ⟨strm.ret, destLen, strm.out, lib.compressEnd strm.world⟩
      else ⟨bzOk, destLen - strm.availOut, strm.out, lib.compressEnd strm.world⟩

/-- `BZ2_bzBuffToBuffDecompress`, on buffers that are not `NULL`. -/
def bz2BuffToBuffDecompress (lib : Bzlib σ) (destLen : ℕ) (source : List UInt8)
    (small verbosity : ℤ) (w : σ) : BzResult σ :=
  if (small ≠ 0 ∧ small ≠ 1) ∨ verbosity < 0 ∨ verbosity > 4 then
    ⟨bzParamError, destLen, fun _ => none, w⟩
  else
    let init := lib.decompressInit verbosity small w
    if init.1 ≠ bzOk then ⟨init.1, destLen, fun _ => none, init.2⟩
    else
      let strm := lib.decompress source destLen init.2
      let world := lib.decompressEnd strm.world
      if strm.ret = bzOk then
        ⟨if strm.availOut > 0 then bzUnexpectedEof else bzOutbuffFull, destLen, strm.out, world⟩
      else if strm.ret ≠ bzStreamEnd then ⟨strm.ret, destLen, strm.out, world⟩
      else ⟨bzOk, destLen - strm.availOut, strm.out, world⟩

/-! ## The wrappers -/

/-- The call that `lzbench_bzip2_compress` makes; both sizes are cut to 32 bits. -/
def bzip2CompressCall (lib : Bzlib σ) (a : CodecArgs) (w : σ) : BzResult σ :=
  bz2BuffToBuffCompress lib (toUInt32 a.outsize) (a.inbuf.bytes a.inpos (toUInt32 a.insize))
    (toInt32 a.param1) 0 0 w

/-- The call that `lzbench_bzip2_decompress` makes. -/
def bzip2DecompressCall (lib : Bzlib σ) (a : CodecArgs) (w : σ) : BzResult σ :=
  bz2BuffToBuffDecompress lib (toUInt32 a.outsize) (a.inbuf.bytes a.inpos (toUInt32 a.insize)) 0 0
    w

/-- `== BZ_OK ? a_outsize : -1`, of the type `unsigned int`, as an `int64_t`. -/
def bzip2Return (r : BzResult σ) : ℤ := if r.ret = bzOk then r.destLen else toUInt32 (-1)

/-- `lzbench_bzip2_compress`. -/
def lzbenchBzip2Compress (lib : Bzlib σ) : CompressFunc σ := fun a w =>
  let r := bzip2CompressCall lib a w
  ⟨bzip2Return r, (r.out.shift a.outpos).onto a.outbuf, r.world⟩

/-- `lzbench_bzip2_decompress`. -/
def lzbenchBzip2Decompress (lib : Bzlib σ) : CompressFunc σ := fun a w =>
  let r := bzip2DecompressCall lib a w
  ⟨bzip2Return r, (r.out.shift a.outpos).onto a.outbuf, r.world⟩

/-- How a call ended: with a length, or with an error status. -/
def BzResult.outcome (r : BzResult σ) : Option ℕ := if r.ret = bzOk then some r.destLen else none

theorem bzip2Return_of_some {r : BzResult σ} {n : ℕ} (h : r.outcome = some n) :
    bzip2Return r = n := by
  simp only [BzResult.outcome] at h
  split at h
  · rename_i hret
    rw [bzip2Return, if_pos hret, Option.some.inj h]
  · cases h

/-- A failure is returned as a length. -/
theorem bzip2Return_of_none {r : BzResult σ} (h : r.outcome = none) :
    bzip2Return r = (2 ^ 32 - 1 : ℕ) := by
  simp only [BzResult.outcome] at h
  split at h
  · cases h
  · rename_i hret
    rw [bzip2Return, if_neg hret]
    rfl

/-- Both calls keep to the capacity they are given. -/
theorem bzip2CompressCall_le (lib : Bzlib σ) (a : CodecArgs) (w : σ) :
    (bzip2CompressCall lib a w).destLen ≤ toUInt32 a.outsize ∧
      (bzip2CompressCall lib a w).out.Within (toUInt32 a.outsize) := by
  have hstrm := lib.compress_within (a.inbuf.bytes a.inpos (toUInt32 a.insize)) (toUInt32 a.outsize)
  simp only [bzip2CompressCall, bz2BuffToBuffCompress]
  split_ifs
  · exact ⟨le_rfl, fun _ _ => rfl⟩
  · exact ⟨le_rfl, fun _ _ => rfl⟩
  · exact ⟨le_rfl, (hstrm _).2⟩
  · exact ⟨le_rfl, (hstrm _).2⟩
  · exact ⟨Nat.sub_le _ _, (hstrm _).2⟩

/-- The calls with the level `level` from the state `w` on have the given outcomes, each a
function of the capacity. -/
def Follows (call : CodecArgs → σ → BzResult σ) (level : ℕ) : List (ℕ → Option ℕ) → σ → Prop
  | [], _ => True
  | o :: outcomes, w => ∀ a, a.param1 = level →
      (call a w).outcome = o (toUInt32 a.outsize) ∧ Follows call level outcomes (call a w).world

/-! ## The fallback of `lzbench_compress` -/

/-- The call for the `i`-th chunk failed. -/
def FailedAt (outcomes : List (ℕ → Option ℕ)) (calls : List CompressCall) (i : ℕ) : Prop :=
  ∃ o call, outcomes[i]? = some o ∧ calls[i]? = some call ∧ o (toUInt32 call.outpart) = none

/-- The first `i` chunks and the bytes of the `i`-th one. -/
def RawAt (inbuf outbuf : Mem) (chunkSizes comprSizes : List ℕ) (i : ℕ) : Prop :=
  comprSizes[i]? = chunkSizes[i]? ∧
    Mem.SameBytes outbuf (comprSizes.take i).sum inbuf (chunkSizes.take i).sum
      (chunkSizes.getD i 0)

/-- Every chunk that failed is stored raw, nothing is written outside of the output, and the
sum of what is stored is returned. -/
structure FallsBack (outcomes : List (ℕ → Option ℕ)) (inbuf : Mem) (chunkSizes : List ℕ)
    (outbuf : Mem) (outsize : ℕ) (r : CompressResult σ) : Prop where
  length_eq : r.comprSizes.length = chunkSizes.length
  raw : ∀ i, FailedAt outcomes r.calls i → RawAt inbuf r.outbuf chunkSizes r.comprSizes i
  within : Mem.WritesWithin outbuf r.outbuf 0 outsize
  ret_eq : r.ret = r.comprSizes.sum

/-- The room left after a chunk, where it can be stored: a failure is stored raw when the
chunk has the very size that the failure is taken for, and so is an empty code. -/
def roomAfter (part room : ℕ) : Option ℕ → Option ℕ
  | none => if part = 2 ^ 32 - 1 ∧ part ≤ room then some (room - part) else none
  | some 0 => if part ≤ room then some (room - part) else none
  | some n => some (room - n)

/-- Every chunk can be stored, one after the other. -/
def CanStore : List (ℕ → Option ℕ) → ℕ → List ℕ → Prop
  | o :: outcomes, room, part :: rest =>
    ∃ room',
      roomAfter part room (o (toUInt32 (min (getCompressBound part) room : ℕ))) = some room' ∧
      CanStore outcomes room' rest
  | _, _, _ => True

section Compress

variable {lib : Bzlib σ} {outcomes : List (ℕ → Option ℕ)} {inbuf outbuf : Mem}
  {param1 param2 workmem cap : ℕ}

/-- The invariant of the loop while every chunk can be stored. -/
structure Falling (lib : Bzlib σ) (param1 : ℕ) (outcomes : List (ℕ → Option ℕ))
    (inbuf outbuf : Mem) (cap : ℕ) (done : List ℕ) (s : CompressState σ) : Prop
    extends Accounts cap done s where
  calls_eq : s.calls.length = done.length
  follows : Follows (bzip2CompressCall lib) param1 (outcomes.drop done.length) s.world
  within : Mem.WritesWithin outbuf s.outbuf 0 cap
  raw : ∀ i, FailedAt outcomes s.calls i → RawAt inbuf s.outbuf done s.sizes i

/-- The first chunks are where they were once another one is stored behind them. -/
theorem RawAt.append {done sizes : List ℕ} {i : ℕ} (h : RawAt inbuf outbuf done sizes i)
    (hlen : sizes.length = done.length) (hi : i < done.length) {outbuf' : Mem}
    (hag : Mem.Agree outbuf outbuf' 0 sizes.sum) (part k : ℕ) :
    RawAt inbuf outbuf' (done ++ [part]) (sizes ++ [k]) i := by
  obtain ⟨hsize, hbytes⟩ := h
  refine ⟨?_, ?_⟩
  · rw [List.getElem?_append_left (by omega), List.getElem?_append_left hi, hsize]
  · rw [List.take_append_of_le_length (by omega), List.take_append_of_le_length (by omega),
      List.getD_append _ _ _ _ hi]
    have hget : sizes.getD i 0 = done.getD i 0 := by
      rw [List.getD_eq_getElem?_getD, List.getD_eq_getElem?_getD, hsize]
    have haround := sum_around sizes (i := i) (by omega)
    intro j hj
    have hkept : Mem.Agree outbuf outbuf' (sizes.take i).sum (done.getD i 0) :=
      hag.sub (Nat.zero_le _) (by omega)
    rw [← hkept j hj]
    exact hbytes j hj

/-- What one more chunk adds to the invariant. -/
theorem Falling.store {done : List ℕ} {s s' : CompressState σ} {part k : ℕ} {c : CompressCall}
    {o : ℕ → Option ℕ} (h : Falling lib param1 outcomes inbuf outbuf cap done s)
    (ho : outcomes[done.length]? = some o) (hsizes : s'.sizes = s.sizes)
    (hcalls : s'.calls = s.calls ++ [c])
    (hacc : Accounts cap (done ++ [part]) (s'.store part k))
    (hfollows : Follows (bzip2CompressCall lib) param1 (outcomes.drop (done.length + 1)) s'.world)
    (hag : Mem.Agree s.outbuf s'.outbuf 0 s.outpos)
    (hwithin : Mem.WritesWithin outbuf s'.outbuf 0 cap)
    (hraw : o (toUInt32 c.outpart) = none →
      k = part ∧ Mem.SameBytes s'.outbuf s.outpos inbuf s.inpos part) :
    Falling lib param1 outcomes inbuf outbuf cap (done ++ [part]) (s'.store part k) := by
  have hlen : s.sizes.length = done.length := h.length_eq
  have hnext : (s'.store part k).sizes = s.sizes ++ [k] := by
    simp only [CompressState.store, hsizes]
  refine ⟨hacc, ?_, ?_, hwithin, ?_⟩
  · simp [CompressState.store, hcalls, h.calls_eq]
  · rw [List.length_append]
    exact hfollows
  · rintro i ⟨oi, ci, hoi, hci, hfail⟩
    rw [hnext]
    have hci : (s.calls ++ [c])[i]? = some ci := hcalls ▸ hci
    by_cases hi : i < done.length
    · rw [List.getElem?_append_left (by rw [h.calls_eq]; exact hi)] at hci
      refine (h.raw i ⟨oi, ci, hoi, hci, hfail⟩).append hlen hi ?_ part k
      rw [← h.outpos_eq]
      exact hag
    · have hlast : i = done.length := by
        have hlt : i < (s.calls ++ [c]).length := (List.getElem?_eq_some_iff.mp hci).1
        rw [List.length_append, h.calls_eq, List.length_singleton] at hlt
        omega
      subst hlast
      rw [← h.calls_eq, List.getElem?_concat_length] at hci
      obtain rfl : c = ci := Option.some.inj hci
      obtain rfl : o = oi := Option.some.inj (ho.symm.trans hoi)
      obtain ⟨rfl, hbytes⟩ := hraw hfail
      refine ⟨?_, ?_⟩
      · rw [List.getElem?_concat_length, ← hlen, List.getElem?_concat_length]
      · have hget : (done ++ [k]).getD done.length 0 = k := by simp
        rw [hget, List.take_left, ← hlen, List.take_left, ← h.outpos_eq, ← h.inpos_eq]
        exact hbytes

/-- The outcome of the next call, and what it leaves of the rest. -/
theorem Falling.outcome_eq {done : List ℕ} {s : CompressState σ} {o : ℕ → Option ℕ}
    (h : Falling lib param1 outcomes inbuf outbuf cap done s)
    (ho : outcomes[done.length]? = some o) (part : ℕ) :
    let a := compressArgs inbuf param1 param2 workmem s part
    (bzip2CompressCall lib a s.world).outcome = o (toUInt32 (outpart s part)) ∧
      Follows (bzip2CompressCall lib) param1 (outcomes.drop (done.length + 1))
        (bzip2CompressCall lib a s.world).world := by
  obtain ⟨hlt, hget⟩ := List.getElem?_eq_some_iff.mp ho
  have hfollows := h.follows
  rw [List.drop_eq_getElem_cons hlt, hget] at hfollows
  exact hfollows _ rfl

variable (param2 workmem) in
/-- Whatever its outcome, a call writes only in the room left. -/
theorem Falling.call_within {done : List ℕ} {s : CompressState σ}
    (h : Falling lib param1 outcomes inbuf outbuf cap done s) (part : ℕ) :
    let r := lzbenchBzip2Compress lib (compressArgs inbuf param1 param2 workmem s part) s.world
    Mem.WritesWithin s.outbuf r.out s.outpos s.outsize ∧ Mem.WritesWithin outbuf r.out 0 cap := by
  let a := compressArgs inbuf param1 param2 workmem s part
  have hcap : s.outpos + s.outsize = cap := by
    rw [h.outpos_eq, Nat.add_comm]
    exact h.room_eq
  have hle : toUInt32 a.outsize ≤ s.outsize := by
    have hout : a.outsize ≤ s.outsize := Nat.min_le_right _ _
    simp only [toUInt32]
    omega
  have hcall : Mem.WritesWithin s.outbuf (lzbenchBzip2Compress lib a s.world).out s.outpos
      s.outsize :=
    (Patch.writesWithin_onto_shift (bzip2CompressCall_le lib a s.world).2 s.outbuf s.outpos).mono
      le_rfl (Nat.add_le_add_left hle _)
  exact ⟨hcall, h.within.trans (hcall.mono (Nat.zero_le _) (by omega))⟩

/-- A chunk that is stored raw and finds room. -/
theorem falling_raw (hcap : cap < 2 ^ 64) {done : List ℕ} {s : CompressState σ} {part : ℕ}
    {o : ℕ → Option ℕ} (h : Falling lib param1 outcomes inbuf outbuf cap done s)
    (ho : outcomes[done.length]? = some o) {r : CodecResult σ}
    (hr : r = lzbenchBzip2Compress lib (compressArgs inbuf param1 param2 workmem s part) s.world)
    (hraw : r.ret ≤ 0 ∨ toSize r.ret = part) (hle : part ≤ s.outsize) :
    ∃ t, compressStep (lzbenchBzip2Compress lib) inbuf param1 param2 workmem s part = .ok t ∧
      Falling lib param1 outcomes inbuf outbuf cap (done ++ [part]) t ∧
        t.outsize = s.outsize - part := by
  obtain ⟨hcall, hwithin⟩ := h.call_within param2 workmem part
  have hroom : s.outsize + s.sizes.sum = cap := h.room_eq
  have hout : s.outpos + s.outsize = cap := by
    rw [h.outpos_eq, Nat.add_comm]
    exact hroom
  rw [← hr] at hcall hwithin
  have hcopy : Mem.WritesWithin r.out (r.out.copy s.outpos inbuf s.inpos part) s.outpos part :=
    Mem.writesWithin_copy _ _ _ _ _
  refine ⟨((s.called part (outpart s part) r).copyRaw inbuf part).store part part, ?_, ?_, ?_⟩
  · simp only [compressStep, ← hr, if_pos hraw]
    rw [if_neg (by omega)]
  · refine h.store (c := ⟨part, s.outsize, outpart s part, r.ret⟩) ho rfl rfl
      (((h.toAccounts.called _ _ _).copyRaw _ _).store hcap hle) ?_ ?_ ?_ fun _ => ⟨rfl, ?_⟩
    · exact hr ▸ (h.outcome_eq ho part).2
    · exact (hcall.agree_before (by omega)).trans (hcopy.agree_before (by omega))
    · exact hwithin.trans (hcopy.mono (Nat.zero_le _) (by omega))
    · exact Mem.sameBytes_copy _ _ _ _ _
  · exact subSize_of_le (a := s.outsize) hle (by omega)

/-- A chunk that is stored coded. -/
theorem falling_coded (hcap : cap < 2 ^ 64) {done : List ℕ} {s : CompressState σ} {part : ℕ}
    {o : ℕ → Option ℕ} (h : Falling lib param1 outcomes inbuf outbuf cap done s)
    (ho : outcomes[done.length]? = some o) {r : CodecResult σ}
    (hr : r = lzbenchBzip2Compress lib (compressArgs inbuf param1 param2 workmem s part) s.world)
    (hcoded : ¬ (r.ret ≤ 0 ∨ toSize r.ret = part)) (hsome : o (toUInt32 (outpart s part)) ≠ none)
    (hle : toSize r.ret ≤ s.outsize) :
    ∃ t, compressStep (lzbenchBzip2Compress lib) inbuf param1 param2 workmem s part = .ok t ∧
      Falling lib param1 outcomes inbuf outbuf cap (done ++ [part]) t ∧
        t.outsize = s.outsize - toSize r.ret := by
  obtain ⟨hcall, hwithin⟩ := h.call_within param2 workmem part
  have hroom : s.outsize + s.sizes.sum = cap := h.room_eq
  rw [← hr] at hcall hwithin
  refine ⟨(s.called part (outpart s part) r).store part (toSize r.ret), ?_, ?_, ?_⟩
  · simp only [compressStep, ← hr, if_neg hcoded]
  · refine h.store (c := ⟨part, s.outsize, outpart s part, r.ret⟩) ho rfl rfl
      ((h.toAccounts.called _ _ _).store hcap hle) ?_ ?_ hwithin fun hnone => absurd hnone hsome
    · exact hr ▸ (h.outcome_eq ho part).2
    · exact hcall.agree_before (by omega)
  · exact subSize_of_le (a := s.outsize) hle (by omega)

/-- What the next call returns. -/
theorem Falling.ret_eq {done : List ℕ} {s : CompressState σ} {part : ℕ} {o : ℕ → Option ℕ}
    (h : Falling lib param1 outcomes inbuf outbuf cap done s)
    (ho : outcomes[done.length]? = some o) {r : CodecResult σ}
    (hr : r = lzbenchBzip2Compress lib (compressArgs inbuf param1 param2 workmem s part) s.world) :
    match o (toUInt32 (outpart s part)) with
    | none => r.ret = (2 ^ 32 - 1 : ℕ)
    | some n => r.ret = n ∧ n ≤ s.outsize := by
  let a := compressArgs inbuf param1 param2 workmem s part
  have hout : (bzip2CompressCall lib a s.world).outcome = o (toUInt32 (outpart s part)) :=
    (h.outcome_eq ho part).1
  have hret : r.ret = bzip2Return (bzip2CompressCall lib a s.world) := by
    rw [hr]
    rfl
  rw [← hout, hret]
  cases hcase : (bzip2CompressCall lib a s.world).outcome with
  | none => exact bzip2Return_of_none hcase
  | some n =>
    refine ⟨bzip2Return_of_some hcase, ?_⟩
    have hlen : n = (bzip2CompressCall lib a s.world).destLen := by
      simp only [BzResult.outcome] at hcase
      split at hcase
      · exact (Option.some.inj hcase).symm
      · cases hcase
    have hle : (bzip2CompressCall lib a s.world).destLen ≤ toUInt32 a.outsize :=
      (bzip2CompressCall_le lib a s.world).1
    have hcapacity : a.outsize ≤ s.outsize := Nat.min_le_right _ _
    simp only [toUInt32] at hle
    omega

variable (param2 workmem) in
/-- A chunk that can be stored is stored, and the room left is as expected. -/
theorem falling_step (hcap : cap < 2 ^ 64) {done : List ℕ} {s : CompressState σ} {part room' : ℕ}
    {o : ℕ → Option ℕ} (h : Falling lib param1 outcomes inbuf outbuf cap done s)
    (ho : outcomes[done.length]? = some o)
    (hroom : roomAfter part s.outsize (o (toUInt32 (outpart s part))) = some room') :
    ∃ t, compressStep (lzbenchBzip2Compress lib) inbuf param1 param2 workmem s part = .ok t ∧
      Falling lib param1 outcomes inbuf outbuf cap (done ++ [part]) t ∧ t.outsize = room' := by
  have hret := h.ret_eq ho (rfl : _ = lzbenchBzip2Compress lib
    (compressArgs inbuf param1 param2 workmem s part) s.world)
  cases hcase : o (toUInt32 (outpart s part)) with
  | none =>
    simp only [hcase] at hret hroom
    by_cases hfit : part = 2 ^ 32 - 1 ∧ part ≤ s.outsize
    · rw [roomAfter, if_pos hfit, Option.some.injEq] at hroom
      subst hroom
      refine falling_raw hcap h ho rfl (Or.inr ?_) hfit.2
      rw [hret, toSize_ofNat (by norm_num), hfit.1]
    · rw [roomAfter, if_neg hfit] at hroom
      cases hroom
  | some n =>
    simp only [hcase] at hret hroom
    obtain ⟨hret, hle⟩ := hret
    have hsize : toSize (n : ℤ) = n := toSize_ofNat (by have hsum := h.room_eq; omega)
    cases n with
    | zero =>
      by_cases hfit : part ≤ s.outsize
      · rw [roomAfter, if_pos hfit, Option.some.injEq] at hroom
        subst hroom
        exact falling_raw hcap h ho rfl (Or.inl (by rw [hret]; exact le_rfl)) hfit
      · rw [roomAfter, if_neg hfit] at hroom
        cases hroom
    | succ n =>
      obtain rfl : s.outsize - (n + 1) = room' := Option.some.inj hroom
      by_cases hpart : part = n + 1
      · subst hpart
        exact falling_raw hcap h ho rfl (Or.inr (by rw [hret, hsize])) hle
      · have hcoded := falling_coded hcap h ho (rfl : _ = lzbenchBzip2Compress lib
          (compressArgs inbuf param1 param2 workmem s part) s.world)
        have hsome : o (toUInt32 (outpart s part)) ≠ none := by
          rw [hcase]
          exact Option.some_ne_none (n + 1)
        rw [hret, hsize] at hcoded
        exact hcoded (by omega) hsome hle

variable (param2 workmem) in
/-- A chunk that cannot be stored is a failure that is taken for a length, or finds no
room. -/
theorem falling_stuck {done : List ℕ} {s : CompressState σ} {part : ℕ} {o : ℕ → Option ℕ}
    (h : Falling lib param1 outcomes inbuf outbuf cap done s)
    (ho : outcomes[done.length]? = some o)
    (hroom : roomAfter part s.outsize (o (toUInt32 (outpart s part))) = none) :
    (∃ t, compressStep (lzbenchBzip2Compress lib) inbuf param1 param2 workmem s part = .ok t ∧
      t.sizes = s.sizes ++ [2 ^ 32 - 1] ∧ part ≠ 2 ^ 32 - 1 ∧
      ∃ c, t.calls = s.calls ++ [c] ∧ o (toUInt32 c.outpart) = none) ∨
    ∃ t, compressStep (lzbenchBzip2Compress lib) inbuf param1 param2 workmem s part = .error t ∧
      t.sizes = s.sizes ∧ s.outsize < part := by
  let r := lzbenchBzip2Compress lib (compressArgs inbuf param1 param2 workmem s part) s.world
  have hret := h.ret_eq (r := r) ho rfl
  cases hcase : o (toUInt32 (outpart s part)) with
  | none =>
    simp only [hcase] at hret hroom
    have hsize : toSize r.ret = 2 ^ 32 - 1 := by rw [hret, toSize_ofNat (by norm_num)]
    by_cases hpart : part = 2 ^ 32 - 1
    · have hout : s.outsize < part := by
        by_contra hle
        rw [roomAfter, if_pos ⟨hpart, not_lt.mp hle⟩] at hroom
        cases hroom
      refine Or.inr ⟨s.called part (outpart s part) r, ?_, rfl, hout⟩
      have hraw : r.ret ≤ 0 ∨ toSize r.ret = part := Or.inr (hsize.trans hpart.symm)
      simp only [compressStep]
      rw [if_pos hraw, if_pos hout]
    · refine Or.inl ⟨(s.called part (outpart s part) r).store part (toSize r.ret), ?_, ?_, hpart,
        ⟨part, s.outsize, outpart s part, r.ret⟩, rfl, hcase⟩
      · have hcoded : ¬ (r.ret ≤ 0 ∨ toSize r.ret = part) := by
          rw [hsize, hret, not_or]
          exact ⟨by norm_num, fun heq => hpart heq.symm⟩
        simp only [compressStep]
        rw [if_neg hcoded]
      · simp only [CompressState.store, CompressState.called, hsize]
  | some n =>
    simp only [hcase] at hret hroom
    cases n with
    | zero =>
      have hout : s.outsize < part := by
        by_contra hle
        rw [roomAfter, if_pos (not_lt.mp hle)] at hroom
        cases hroom
      refine Or.inr ⟨s.called part (outpart s part) r, ?_, rfl, hout⟩
      have hraw : r.ret ≤ 0 ∨ toSize r.ret = part := Or.inl hret.1.le
      simp only [compressStep]
      rw [if_pos hraw, if_pos hout]
    | succ n => cases hroom

/-- The outcomes from a chunk on. -/
theorem drop_outcomes {done rest : List ℕ} {part : ℕ}
    (hlen : outcomes.length = (done ++ part :: rest).length) :
    ∃ o, outcomes[done.length]? = some o ∧
      outcomes.drop done.length = o :: outcomes.drop (done ++ [part]).length := by
  have hlt : done.length < outcomes.length := by
    rw [hlen]
    simp
  refine ⟨outcomes[done.length], List.getElem?_eq_getElem hlt, ?_⟩
  rw [List.drop_eq_getElem_cons hlt, List.length_append, List.length_singleton]

variable (param2 workmem) in
/-- Where every chunk can be stored, the loop goes through. -/
theorem falling_run (hcap : cap < 2 ^ 64) (rest done : List ℕ) {s : CompressState σ}
    (h : Falling lib param1 outcomes inbuf outbuf cap done s)
    (hlen : outcomes.length = (done ++ rest).length)
    (hstore : CanStore (outcomes.drop done.length) s.outsize rest) :
    ∃ t, rest.foldlM (compressStep (lzbenchBzip2Compress lib) inbuf param1 param2 workmem) s =
      .ok t ∧ Falling lib param1 outcomes inbuf outbuf cap (done ++ rest) t := by
  induction rest generalizing done s with
  | nil =>
    rw [List.append_nil]
    exact ⟨s, rfl, h⟩
  | cons part rest ih =>
    obtain ⟨o, ho, hdrop⟩ := drop_outcomes hlen
    rw [hdrop] at hstore
    obtain ⟨room', hroom, hrest⟩ := hstore
    have hroom : roomAfter part s.outsize (o (toUInt32 (outpart s part))) = some room' := by
      rw [outpart]
      exact hroom
    obtain ⟨t, hstep, ht, rfl⟩ := falling_step param2 workmem hcap h ho hroom
    obtain ⟨u, hrun, hu⟩ := ih (done ++ [part]) ht (by simpa using hlen) hrest
    refine ⟨u, ?_, by simpa using hu⟩
    rw [List.foldlM_cons, hstep]
    exact hrun

variable (inbuf param1 param2 workmem) in
/-- The loop only adds to what it has stored. -/
theorem prefix_run (compress : CompressFunc σ) (rest : List ℕ) (s : CompressState σ) :
    Ends (fun t : CompressState σ => s.sizes <+: t.sizes ∧ s.calls <+: t.calls)
      (fun t => s.sizes <+: t.sizes ∧ s.calls <+: t.calls)
      (rest.foldlM (compressStep compress inbuf param1 param2 workmem) s) := by
  refine ends_foldlM (fun _ (t : CompressState σ) => s.sizes <+: t.sizes ∧ s.calls <+: t.calls) rest
    ⟨List.prefix_rfl, List.prefix_rfl⟩ ?_
  intro _ part _ t _ ht
  have hadd : ∀ sizes calls, s.sizes <+: t.sizes ++ sizes ∧ s.calls <+: t.calls ++ calls :=
    fun _ _ => ⟨ht.1.trans (List.prefix_append _ _), ht.2.trans (List.prefix_append _ _)⟩
  refine ends_compressStep _ _ _ _ _ rfl (fun _ _ => hadd _ _) (fun _ _ => hadd _ _) fun _ _ => ?_
  exact ⟨ht.1, (hadd [] _).2⟩

variable (inbuf param1 param2 workmem) in
/-- Either way out of the loop keeps what was stored. -/
theorem compressResult_prefix (compress : CompressFunc σ) (rest resized : List ℕ)
    (s : CompressState σ) :
    let r := compressResult resized
      (rest.foldlM (compressStep compress inbuf param1 param2 workmem) s)
    s.sizes <+: r.comprSizes ∧ s.calls <+: r.calls := by
  have hrun := prefix_run inbuf param1 param2 workmem compress rest s
  cases hfold : rest.foldlM (compressStep compress inbuf param1 param2 workmem) s with
  | ok t =>
    obtain ⟨hsizes, hcalls⟩ := hrun.ok t hfold
    exact ⟨hsizes.trans (List.prefix_append _ _), hcalls⟩
  | error t =>
    obtain ⟨hsizes, hcalls⟩ := hrun.error t hfold
    exact ⟨hsizes.trans (List.prefix_append _ _), hcalls⟩

theorem getElem?_of_prefix {α : Type} {l l' : List α} (h : l <+: l') {i : ℕ} {a : α}
    (hi : l[i]? = some a) : l'[i]? = some a := by
  obtain ⟨rest, rfl⟩ := h
  rw [List.getElem?_append_left (List.getElem?_eq_some_iff.mp hi).1, hi]

/-- Where the loop falls back as it should, every chunk can be stored. -/
theorem canStore_of_fallsBack (hcap : cap < 2 ^ 64) (resized rest done : List ℕ)
    {s : CompressState σ} (h : Falling lib param1 outcomes inbuf outbuf cap done s)
    (hlen : outcomes.length = (done ++ rest).length) (hsum : (done ++ rest).sum ≤ cap)
    (hback : FallsBack outcomes inbuf (done ++ rest) outbuf cap (compressResult resized
      (rest.foldlM (compressStep (lzbenchBzip2Compress lib) inbuf param1 param2 workmem) s))) :
    CanStore (outcomes.drop done.length) s.outsize rest := by
  induction rest generalizing done s with
  | nil => cases outcomes.drop done.length <;> trivial
  | cons part rest ih =>
    obtain ⟨o, ho, hdrop⟩ := drop_outcomes hlen
    rw [hdrop]
    rw [List.foldlM_cons] at hback
    cases hroom : roomAfter part s.outsize (o (toUInt32 (outpart s part))) with
    | some room' =>
      obtain ⟨t, hstep, ht, rfl⟩ := falling_step param2 workmem hcap h ho hroom
      rw [hstep] at hback
      rw [outpart] at hroom
      refine ⟨t.outsize, hroom, ih (done ++ [part]) ht (by simpa using hlen) (by simpa using hsum)
        ?_⟩
      rw [List.append_assoc]
      exact hback
    | none =>
      exfalso
      cases falling_stuck param2 workmem h ho hroom with
      | inl hwrong =>
        -- the failure stands in the list as a size that is not the chunk's
        obtain ⟨t, hstep, hsizes, hpart, c, hcalls, hfail⟩ := hwrong
        rw [hstep] at hback
        obtain ⟨hkept, hkeptCalls⟩ := compressResult_prefix inbuf param1 param2 workmem
          (lzbenchBzip2Compress lib) rest resized t
        have hcall := getElem?_of_prefix hkeptCalls (i := done.length) (a := c)
          (by rw [hcalls, ← h.calls_eq, List.getElem?_concat_length])
        have hsize := getElem?_of_prefix hkept (i := done.length) (a := 2 ^ 32 - 1)
          (by rw [hsizes, ← h.length_eq, List.getElem?_concat_length])
        obtain ⟨hraw, -⟩ := hback.raw done.length ⟨o, c, ho, hcall, hfail⟩
        have hchunk : (done ++ part :: rest)[done.length]? = some part := by simp
        exact hpart (Option.some.inj (hchunk.symm.trans (hraw.symm.trans hsize)))
      | inr hfull =>
        obtain ⟨t, hstep, hsizes, hfull⟩ := hfull
        rw [hstep] at hback
        have hzero : (0 : ℤ) = (t.sizes ++ resized.drop t.sizes.length).sum := hback.ret_eq
        have hroom : s.outsize + s.sizes.sum = cap := h.room_eq
        rw [List.sum_append, hsizes] at hzero
        rw [List.sum_append, List.sum_cons] at hsum
        omega

end Compress

/-! ## The early return of `lzbench_decompress` -/

section Decompress

variable (lib : Bzlib σ) (inbuf : Mem) (param1 param2 workmem : ℕ)

/-- The decoder's call on a chunk, in the state `s`, fails. -/
def FailsOn (s : DecompressState σ) (entry : ℕ × ℕ) : Prop :=
  entry.1 ≠ entry.2 ∧ (bzip2DecompressCall lib
    (decompressArgs inbuf param1 param2 workmem s entry.1 entry.2) s.world).outcome = none

/-- A chunk that the loop comes to and whose decompression fails ends the loop, and what the
call returns is not positive. -/
def StopsAtFailure (chunkSizes comprSizes : List ℕ) (outbuf : Mem) (w : σ) : Prop :=
  ∀ s entry,
    Reaches (decompressStep (lzbenchBzip2Decompress lib) inbuf param1 param2 workmem)
      (decompressInit outbuf w)
      ((comprSizes.zip chunkSizes).take (chunkCount comprSizes.length).toNat) s entry →
    FailsOn lib inbuf param1 param2 workmem s entry →
    ∃ dlen t, decompressStep (lzbenchBzip2Decompress lib) inbuf param1 param2 workmem s entry =
        .error (dlen, t) ∧
      (lzbenchDecompress (lzbenchBzip2Decompress lib) inbuf param1 param2 workmem chunkSizes
        comprSizes outbuf w).ret = dlen ∧ dlen ≤ 0

/-- None of the calls that are made fails.  An empty result ends the loop, as does a raw
chunk whose size is no positive `int64_t`. -/
def NoFailure : List (ℕ → Option ℕ) → List (ℕ × ℕ) → Prop
  | o :: outcomes, (part, chunk) :: rest =>
    if part = chunk then toInt64 part ≤ 0 ∨ NoFailure (o :: outcomes) rest
    else
      match o (toUInt32 chunk) with
      | none => False
      | some n => n = 0 ∨ NoFailure outcomes rest
  | _, _ => True

variable {lib inbuf param1 param2 workmem}

/-- The result of a chunk decides whether the loop goes on. -/
theorem decompressStep_bzip2 {s : DecompressState σ} {entry : ℕ × ℕ} {r : CodecResult σ}
    (hr : r = decompressChunk (lzbenchBzip2Decompress lib) inbuf param1 param2 workmem s entry.1
      entry.2) :
    decompressStep (lzbenchBzip2Decompress lib) inbuf param1 param2 workmem s entry =
      if r.ret ≤ 0 then .error (r.ret, s.wrote (entry.1 = entry.2) entry.2 r)
      else .ok ((s.wrote (entry.1 = entry.2) entry.2 r).advance entry.1 (toSize r.ret)) := by
  rw [hr]
  rfl

/-- A failing call does not end the loop. -/
theorem decompressStep_of_failsOn {s : DecompressState σ} {entry : ℕ × ℕ}
    (h : FailsOn lib inbuf param1 param2 workmem s entry) :
    ∃ t, decompressStep (lzbenchBzip2Decompress lib) inbuf param1 param2 workmem s entry =
      .ok t := by
  obtain ⟨hne, hfail⟩ := h
  have hret : (decompressChunk (lzbenchBzip2Decompress lib) inbuf param1 param2 workmem s entry.1
      entry.2).ret = (2 ^ 32 - 1 : ℕ) := by
    rw [decompressChunk, if_neg hne]
    exact bzip2Return_of_none hfail
  rw [decompressStep_bzip2 rfl, if_neg (by rw [hret]; norm_num)]
  exact ⟨_, rfl⟩

/-- No chunk that the loop comes to fails. -/
def NoneFails (lib : Bzlib σ) (inbuf : Mem) (param1 param2 workmem : ℕ) (s : DecompressState σ)
    (entries : List (ℕ × ℕ)) : Prop :=
  ∀ t entry, Reaches (decompressStep (lzbenchBzip2Decompress lib) inbuf param1 param2 workmem) s
    entries t entry → ¬ FailsOn lib inbuf param1 param2 workmem t entry

theorem noneFails_cons {s : DecompressState σ} {entry : ℕ × ℕ} {rest : List (ℕ × ℕ)} :
    NoneFails lib inbuf param1 param2 workmem s (entry :: rest) ↔
      ¬ FailsOn lib inbuf param1 param2 workmem s entry ∧
      ∀ s', decompressStep (lzbenchBzip2Decompress lib) inbuf param1 param2 workmem s entry =
        .ok s' → NoneFails lib inbuf param1 param2 workmem s' rest := by
  simp only [NoneFails, reaches_cons]
  constructor
  · intro h
    exact ⟨h s entry (Or.inl ⟨rfl, rfl⟩), fun s' hs' t e he => h t e (Or.inr ⟨s', hs', he⟩)⟩
  · rintro ⟨hfirst, hrest⟩ t e he
    rcases he with ⟨rfl, rfl⟩ | ⟨s', hs', he⟩
    · exact hfirst
    · exact hrest s' hs' t e he

/-- A chunk at which the loop goes on, or is left. -/
theorem noneFails_step {s : DecompressState σ} {entry : ℕ × ℕ} {rest : List (ℕ × ℕ)}
    {r : CodecResult σ}
    (hr : r = decompressChunk (lzbenchBzip2Decompress lib) inbuf param1 param2 workmem s entry.1
      entry.2)
    (hgood : ¬ FailsOn lib inbuf param1 param2 workmem s entry) {Q : Prop}
    (hrest : 0 < r.ret → (NoneFails lib inbuf param1 param2 workmem
      ((s.wrote (entry.1 = entry.2) entry.2 r).advance entry.1 (toSize r.ret)) rest ↔ Q)) :
    NoneFails lib inbuf param1 param2 workmem s (entry :: rest) ↔ r.ret ≤ 0 ∨ Q := by
  rw [noneFails_cons, decompressStep_bzip2 hr, and_iff_right hgood]
  by_cases hle : r.ret ≤ 0
  · rw [if_pos hle]
    exact iff_of_true nofun (Or.inl hle)
  · rw [if_neg hle, or_iff_right hle, ← hrest (by omega)]
    constructor
    · exact fun hall => hall _ rfl
    · intro hall s' hs'
      rw [← Except.ok.inj hs']
      exact hall

variable (inbuf param2 workmem) in
/-- Whether a call fails that is made is decided by the outcomes. -/
theorem noneFails_iff (entries : List (ℕ × ℕ)) (outcomes : List (ℕ → Option ℕ))
    (hlen : entries.length ≤ outcomes.length) (s : DecompressState σ)
    (h : Follows (bzip2DecompressCall lib) param1 outcomes s.world) :
    NoneFails lib inbuf param1 param2 workmem s entries ↔ NoFailure outcomes entries := by
  induction entries generalizing outcomes s with
  | nil => exact iff_of_true (fun _ _ he => (not_reaches_nil he).elim) (by simp [NoFailure])
  | cons entry rest ih =>
    obtain ⟨part, chunk⟩ := entry
    cases outcomes with
    | nil => simp at hlen
    | cons o outcomes =>
      rw [NoFailure]
      rw [List.length_cons, List.length_cons] at hlen
      by_cases heq : part = chunk
      · rw [if_pos heq]
        have hchunk : decompressChunk (lzbenchBzip2Decompress lib) inbuf param1 param2 workmem s
            part chunk = ⟨toInt64 part, s.outbuf.copy s.outpos inbuf s.inpos part, s.world⟩ := by
          rw [decompressChunk, if_pos heq]
        have hgood : ¬ FailsOn lib inbuf param1 param2 workmem s (part, chunk) := fun hf => hf.1 heq
        refine noneFails_step hchunk.symm hgood fun _ => ?_
        exact ih (o :: outcomes) (by rw [List.length_cons]; omega) _ h
      · obtain ⟨hout, hnext⟩ := h (decompressArgs inbuf param1 param2 workmem s part chunk) rfl
        have hcap : toUInt32 (decompressArgs inbuf param1 param2 workmem s part chunk).outsize =
          toUInt32 chunk := rfl
        rw [hcap] at hout
        rw [if_neg heq]
        cases hcase : o (toUInt32 chunk) with
        | none =>
          rw [hcase] at hout
          exact iff_of_false (fun hall => (noneFails_cons.mp hall).1 ⟨heq, hout⟩) id
        | some n =>
          rw [hcase] at hout
          have hret : (decompressChunk (lzbenchBzip2Decompress lib) inbuf param1 param2 workmem s
              part chunk).ret = n := by
            rw [decompressChunk, if_neg heq]
            exact bzip2Return_of_some hout
          have hworld : (decompressChunk (lzbenchBzip2Decompress lib) inbuf param1 param2 workmem s
              part chunk).world = (bzip2DecompressCall lib
                (decompressArgs inbuf param1 param2 workmem s part chunk) s.world).world := by
            rw [decompressChunk, if_neg heq]
            rfl
          have hzero : n = 0 ↔ (n : ℤ) ≤ 0 := by omega
          simp only [hzero, ← hret]
          refine noneFails_step rfl (fun hf => ?_) fun _ => ?_
          · exact absurd (hf.2.symm.trans hout) nofun
          · refine ih outcomes (by omega) _ ?_
            change Follows _ _ _ (decompressChunk _ _ _ _ _ s part chunk).world
            rw [hworld]
            exact hnext

/-- The loop stops at a failing call where there is none. -/
theorem stopsAtFailure_iff {chunkSizes comprSizes : List ℕ} {outbuf : Mem} {w : σ}
    {outcomes : List (ℕ → Option ℕ)} (hlen : comprSizes.length ≤ outcomes.length)
    (h : Follows (bzip2DecompressCall lib) param1 outcomes w) :
    StopsAtFailure lib inbuf param1 param2 workmem chunkSizes comprSizes outbuf w ↔
      NoFailure outcomes
        ((comprSizes.zip chunkSizes).take (chunkCount comprSizes.length).toNat) := by
  rw [← noneFails_iff inbuf param2 workmem _ _ ?_ (decompressInit outbuf w) h]
  · constructor
    · intro hstop s entry hreach hfail
      obtain ⟨dlen, t, herror, -⟩ := hstop s entry hreach hfail
      obtain ⟨t', hok⟩ := decompressStep_of_failsOn hfail
      rw [hok] at herror
      cases herror
    · exact fun hnone s entry hreach hfail => (hnone s entry hreach hfail).elim
  · rw [List.length_take, List.length_zip]
    omega

end Decompress

/-! ## The two loops -/

/-- The sizes stored are no more than the chunks counted. -/
theorem length_compressResult (compress : CompressFunc σ) (inbuf : Mem)
    (param1 param2 workmem : ℕ) (chunks resized : List ℕ)
    (hresized : resized.length = chunks.length) (outbuf : Mem) (outsize : UInt64) (w : σ) :
    (compressResult resized (chunks.foldlM (compressStep compress inbuf param1 param2 workmem)
      (compressInit outbuf outsize w))).comprSizes.length = chunks.length := by
  have hrun : Ends (fun t : CompressState σ => t.sizes.length = chunks.length)
      (fun t => t.sizes.length ≤ chunks.length)
      (chunks.foldlM (compressStep compress inbuf param1 param2 workmem)
        (compressInit outbuf outsize w)) := by
    refine ends_foldlM (fun done (t : CompressState σ) => t.sizes.length = done.length) chunks rfl
      ?_
    intro done part rest t hxs ht
    have hle : done.length ≤ chunks.length := by
      rw [hxs, List.length_append]
      omega
    have hstore : ∀ k, (t.sizes ++ [k]).length = (done ++ [part]).length := by simp [ht]
    exact ends_compressStep _ _ _ _ _ rfl (fun _ _ => hstore _) (fun _ _ => hstore _)
      fun _ _ => ht.trans_le hle
  have hlength : ∀ t : CompressState σ, t.sizes.length ≤ chunks.length →
      (t.sizes ++ resized.drop t.sizes.length).length = chunks.length := by
    intro t ht
    rw [List.length_append, List.length_drop]
    omega
  cases hfold : chunks.foldlM (compressStep compress inbuf param1 param2 workmem)
      (compressInit outbuf outsize w) with
  | ok t => exact hlength t (hrun.ok t hfold).le
  | error t => exact hlength t (hrun.error t hfold)

/-- `lzbench_compress` falls back to raw storage exactly when there are fewer than `2 ^ 31`
chunks and every one can be stored. -/
theorem fallsBack_iff {lib : Bzlib σ} {inbuf : Mem} {param1 : ℕ} (param2 workmem : ℕ)
    {chunkSizes : List ℕ} (comprSizes : List ℕ) (outbuf : Mem) {outsize : UInt64}
    (hobject : outsize.toNat ≤ ptrdiffMax) (hfit : chunkSizes.sum ≤ outsize.toNat) {w : σ}
    {outcomes : List (ℕ → Option ℕ)} (hlen : outcomes.length = chunkSizes.length)
    (h : Follows (bzip2CompressCall lib) param1 outcomes w) :
    (∃ r, lzbenchCompress (lzbenchBzip2Compress lib) inbuf param1 param2 workmem chunkSizes
        comprSizes outbuf outsize w = .ok r ∧
        FallsBack outcomes inbuf chunkSizes outbuf outsize.toNat r) ↔
      chunkSizes.length < 2 ^ 31 ∧ CanStore outcomes outsize.toNat chunkSizes := by
  have hinit : Falling lib param1 outcomes inbuf outbuf outsize.toNat []
      (compressInit outbuf outsize w) := by
    refine ⟨Accounts.init outbuf outsize w, rfl, h, Mem.writesWithin_refl _ _ _, ?_⟩
    rintro i ⟨_, _, -, hcall, -⟩
    simp [compressInit] at hcall
  have hcap := outsize.toNat_lt
  constructor
  · rintro ⟨r, hr, hback⟩
    simp only [lzbenchCompress] at hr
    split at hr
    · cases hr
    rename_i hcount
    obtain rfl := Except.ok.inj hr
    have hshort : chunkSizes.length < 2 ^ 31 := by
      by_contra hlong
      have hlength := hback.length_eq
      rw [length_compressResult _ _ _ _ _ _ _ (by
        rw [List.takeD_length, List.length_take]
        exact (Nat.min_eq_left (chunkCount_le _)).symm), List.length_take] at hlength
      have hlt := chunkCount_lt_of_ge (not_lt.mp hlong)
      omega
    refine ⟨hshort, ?_⟩
    rw [take_chunkCount hshort] at hback
    exact canStore_of_fallsBack hcap _ chunkSizes [] hinit hlen hfit hback
  · rintro ⟨hshort, hstore⟩
    obtain ⟨t, hrun, ht⟩ := falling_run param2 workmem hcap chunkSizes [] hinit hlen hstore
    rw [List.nil_append] at ht
    have hcount : ¬ chunkCount chunkSizes.length < 0 := by
      rw [chunkCount_of_lt hshort]
      omega
    refine ⟨_, by rw [lzbenchCompress, if_neg hcount], ?_⟩
    rw [take_chunkCount hshort, hrun, chunkCount_of_lt hshort, Int.toNat_natCast, compressResult,
      stored_append_drop ht.length_eq]
    have hroom : t.outsize + t.sizes.sum = outsize.toNat := ht.room_eq
    refine ⟨ht.length_eq, ht.raw, ht.within, ?_⟩
    change toInt64 t.sum = _
    rw [ht.sum_eq, toInt64_ofNat (by omega)]

/-- A failing call falls back to raw storage, and ends the decompression, exactly under these
conditions on the outcomes: while every chunk can be stored, and where no decompression
fails. -/
theorem bzip2_failure_iff (lib : Bzlib σ) (inbuf : Mem) (param1 param2 workmem : ℕ)
    (chunkSizes comprSizes : List ℕ) (outbuf : Mem) {outsize : UInt64}
    (hobject : outsize.toNat ≤ ptrdiffMax) (hfit : chunkSizes.sum ≤ outsize.toNat) {w : σ}
    {outcomes : List (ℕ → Option ℕ)} (hlen : outcomes.length = chunkSizes.length)
    (hcompress : Follows (bzip2CompressCall lib) param1 outcomes w)
    (compbuf : Mem) (stored : List ℕ) (decomp : Mem) {w' : σ} {outcomes' : List (ℕ → Option ℕ)}
    (hlen' : stored.length ≤ outcomes'.length)
    (hdecompress : Follows (bzip2DecompressCall lib) param1 outcomes' w') :
    ((∃ r, lzbenchCompress (lzbenchBzip2Compress lib) inbuf param1 param2 workmem chunkSizes
          comprSizes outbuf outsize w = .ok r ∧
          FallsBack outcomes inbuf chunkSizes outbuf outsize.toNat r) ↔
        chunkSizes.length < 2 ^ 31 ∧ CanStore outcomes outsize.toNat chunkSizes) ∧
      (StopsAtFailure lib compbuf param1 param2 workmem chunkSizes stored decomp w' ↔
        NoFailure outcomes' ((stored.zip chunkSizes).take (chunkCount stored.length).toNat)) :=
  ⟨fallsBack_iff param2 workmem comprSizes outbuf hobject hfit hlen hcompress,
    stopsAtFailure_iff hlen' hdecompress⟩

/-- A library that writes one byte wherever there is room for it.  What it writes is arbitrary, and
no stream of bzip2: only the results of the calls are looked at. -/
def oneByteLib : Bzlib Unit where
  compressInit _ _ _ w := (bzOk, w)
  compress _ n w := ⟨bzStreamEnd, n - 1, fun p => if p = 0 ∧ 0 < n then some 0 else none, w⟩
  compressEnd := id
  decompressInit _ _ w := (bzOk, w)
  decompress _ n w := ⟨bzStreamEnd, n - 1, fun p => if p = 0 ∧ 0 < n then some 0 else none, w⟩
  decompressEnd := id
  compress_within _ _ _ := ⟨Nat.sub_le _ _, fun _ hp => if_neg (by omega)⟩
  decompress_within _ _ _ := ⟨Nat.sub_le _ _, fun _ hp => if_neg (by omega)⟩

/-- Two chunks at level 1, of which neither fails. -/
theorem bzip2_failure_two :
    ((∃ r, lzbenchCompress (lzbenchBzip2Compress oneByteLib) (fun _ => 7) 1 0 0 [4, 4] []
          (fun _ => 0) 16393 () = .ok r ∧
          FallsBack [fun n => some (n - (n - 1)), fun n => some (n - (n - 1))] (fun _ => 7) [4, 4]
            (fun _ => 0) 16393 r) ↔
        [4, 4].length < 2 ^ 31 ∧
          CanStore [fun n => some (n - (n - 1)), fun n => some (n - (n - 1))] 16393 [4, 4]) ∧
      (StopsAtFailure oneByteLib (fun _ => 0) 1 0 0 [4, 4] [1, 1] (fun _ => 0) () ↔
        NoFailure [fun n => some (n - (n - 1)), fun n => some (n - (n - 1))]
          (([1, 1].zip [4, 4]).take (chunkCount [1, 1].length).toNat)) := by
  refine bzip2_failure_iff oneByteLib (fun _ => 7) 1 0 0 [4, 4] [] (fun _ => 0) (by decide)
    (by decide) (by rfl) ?_ (fun _ => 0) [1, 1] (fun _ => 0) (by decide) ?_
  · have hcall : ∀ a : CodecArgs, a.param1 = 1 →
        (bzip2CompressCall oneByteLib a ()).outcome =
          some (toUInt32 a.outsize - (toUInt32 a.outsize - 1)) := by
      intro a ha
      rw [bzip2CompressCall, ha]
      rfl
    exact fun a ha => ⟨hcall a ha, fun a ha => ⟨hcall a ha, trivial⟩⟩
  · exact fun _ _ => ⟨rfl, fun _ _ => ⟨rfl, trivial⟩⟩

/-- At level 10 the library turns every call away.  The chunk of four bytes is recorded as
one of `2 ^ 32 - 1`. -/
theorem bzip2_failure_level :
    ¬ ∃ r, lzbenchCompress (lzbenchBzip2Compress oneByteLib) (fun _ => 7) 10 0 0 [4] []
        (fun _ => 0) 16388 () = .ok r ∧
        FallsBack [fun _ => none] (fun _ => 7) [4] (fun _ => 0) 16388 r := by
  have hfollows : Follows (bzip2CompressCall oneByteLib) 10 [fun _ => none] () := by
    intro a ha
    refine ⟨?_, trivial⟩
    rw [bzip2CompressCall, ha]
    rfl
  intro hback
  have hstore := ((fallsBack_iff 0 0 [] (fun _ => 0) (by decide) (by decide) (by rfl)
    hfollows).mp hback).2
  obtain ⟨room', hroom, -⟩ := hstore
  rw [roomAfter, if_neg (by norm_num)] at hroom
  cases hroom

end Lzbench
