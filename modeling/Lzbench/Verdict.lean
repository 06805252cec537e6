import Lzbench.FailureDump
import Lzbench.RoundTrip
import Lzbench.Timing

/-!
# No false alarms

A codec that gives back what it was given is never reported to have failed.  The two
calls are repeated as often as the clock asks for, the sizes and the buffers of one
call are left over for the next, and only the last compression counts; but the round
trip holds whatever the calls find there, so every round of the decompression leaves
the input in the output buffer.

## Main definitions

* `CompressFunc.upTo` — a codec of which only calls up to a size matter.
* `GivesBack` — the round trip of a chunk list, whatever the calls find in the buffers.
* `ends_lzbenchTest_givesBack` — the rows of a run, and the way it stops.
-/

namespace Lzbench

open Imperative

variable {σ : Type}

/-- The codec for chunks of at most `n` bytes, which fails on larger ones. -/
def CompressFunc.upTo (c : CompressFunc σ) (n : ℕ) : CompressFunc σ := fun a w =>
  if a.insize ≤ n then c a w else ⟨0, a.outbuf, w⟩

theorem RoundTrips.upTo {compress decompress : CompressFunc σ} (h : RoundTrips compress decompress)
    (n : ℕ) : RoundTrips (compress.upTo n) decompress := by
  refine ⟨fun a w => ?_, fun a w hpos hne => ?_, fun a w hpos hne => ?_⟩
  · simp only [CompressFunc.upTo]
    split
    · exact h.within a w
    · exact Mem.writesWithin_refl _ _ _
  · simp only [CompressFunc.upTo] at hpos hne ⊢
    split at hpos
    · rename_i hsize
      rw [if_pos hsize] at hne ⊢
      exact h.fits a w hpos hne
    · simp at hpos
  · simp only [CompressFunc.upTo] at hpos hne ⊢
    split at hpos
    · rename_i hsize
      rw [if_pos hsize] at hne ⊢
      exact h.back a w hpos hne
    · simp at hpos

section Codec

variable {compress decompress : CompressFunc σ} {inbuf : Mem} {param1 param2 workmem : ℕ}
  {chunkSizes : List ℕ}

theorem compressStep_upTo {n part : ℕ} (hpart : part ≤ n) (s : CompressState σ) :
    compressStep (compress.upTo n) inbuf param1 param2 workmem s part =
      compressStep compress inbuf param1 param2 workmem s part := by
  have hcall : compress.upTo n (compressArgs inbuf param1 param2 workmem s part) s.world =
      compress (compressArgs inbuf param1 param2 workmem s part) s.world := if_pos hpart
  simp only [compressStep, hcall]

/-- Larger calls are never made. -/
theorem lzbenchCompress_upTo {n : ℕ} (hchunks : ∀ part ∈ chunkSizes, part ≤ n)
    (comprSizes : List ℕ) (outbuf : Mem) (outsize : UInt64) (w : σ) :
    lzbenchCompress (compress.upTo n) inbuf param1 param2 workmem chunkSizes comprSizes outbuf
        outsize w =
      lzbenchCompress compress inbuf param1 param2 workmem chunkSizes comprSizes outbuf outsize
        w := by
  simp only [lzbenchCompress]
  congr 3
  refine foldlM_congr (fun part hpart s => ?_) _
  exact compressStep_upTo (hchunks part (List.mem_of_mem_take hpart)) s

variable (compress decompress inbuf param1 param2 workmem chunkSizes) in
/-- What is compressed and not aborted is decompressed to the input, whatever the buffers
held before. -/
def GivesBack (outsize : UInt64) : Prop :=
  ∀ (comprSizes : List ℕ) (compbuf : Mem) (w : σ) (decomp : Mem) (w' : σ),
    RoundTrip compress decompress inbuf param1 param2 workmem chunkSizes comprSizes compbuf outsize
      w decomp w'

/-- A codec gives the chunks back if one that compresses them in the same way keeps the
contract. -/
theorem givesBack_of_agrees {compress' : CompressFunc σ} {outsize : UInt64}
    (hc : RoundTrips compress' decompress)
    (hagree : ∀ comprSizes outbuf w,
      lzbenchCompress compress' inbuf param1 param2 workmem chunkSizes comprSizes outbuf outsize w =
        lzbenchCompress compress inbuf param1 param2 workmem chunkSizes comprSizes outbuf outsize w)
    (hpos : ∀ part ∈ chunkSizes, 0 < part) (hobj : chunkSizes.sum ≤ ptrdiffMax)
    (hlen : chunkSizes.length < 2 ^ 31) :
    GivesBack compress decompress inbuf param1 param2 workmem chunkSizes outsize := by
  intro comprSizes compbuf w decomp w'
  rw [RoundTrip, ← hagree]
  refine (roundTrip_counted hc hpos hobj comprSizes compbuf outsize w decomp w').mono ?_ ?_
  · rw [take_chunkCount hlen]
    exact fun r hr => hr
  · intro e he
    rw [chunkCount_of_lt hlen] at he
    omega

/-- A codec that keeps the contract for chunks of the sizes that occur gives them back. -/
theorem givesBack_of_upTo {n : ℕ} (hc : RoundTrips (compress.upTo n) decompress)
    (hsize : ∀ part ∈ chunkSizes, part ≤ n) (hpos : ∀ part ∈ chunkSizes, 0 < part)
    (hobj : chunkSizes.sum ≤ ptrdiffMax) (hlen : chunkSizes.length < 2 ^ 31) (outsize : UInt64) :
    GivesBack compress decompress inbuf param1 param2 workmem chunkSizes outsize :=
  givesBack_of_agrees hc (fun comprSizes outbuf w =>
    lzbenchCompress_upTo hsize comprSizes outbuf outsize w) hpos hobj hlen

end Codec

/-! ## Codes that fit -/

section Room

variable {compress : CompressFunc σ} {grow : ℕ → ℕ} {inbuf : Mem} {param1 param2 workmem : ℕ}

/-- What is taken for a code stays within the room for it, and within `grow` of its chunk. -/
def CodesWithin (grow : ℕ → ℕ) (compress : CompressFunc σ) : Prop :=
  ∀ a w, 0 < (compress a w).ret → (compress a w).ret ≠ a.insize →
    (compress a w).ret ≤ a.outsize ∧ (compress a w).ret ≤ grow a.insize

/-- One chunk of a list that fits. -/
theorem codesWithin_step (hc : CodesWithin grow compress) (hgrow : ∀ n, n ≤ grow n) {cap : ℕ}
    (hcap : cap < 2 ^ 64) {s : CompressState σ} {done : List ℕ} {part : ℕ}
    (h : Accounts cap done s ∧ s.sizes.sum ≤ (done.map grow).sum)
    (hfit : ((done ++ [part]).map grow).sum ≤ cap) :
    Ends (fun s' => Accounts cap (done ++ [part]) s' ∧
        s'.sizes.sum ≤ ((done ++ [part]).map grow).sum) (fun _ => False)
      (compressStep compress inbuf param1 param2 workmem s part) := by
  obtain ⟨hacc, hsum⟩ := h
  have hroom : s.outsize + s.sizes.sum = cap := hacc.room_eq
  have hmore : ((done ++ [part]).map grow).sum = (done.map grow).sum + grow part := by simp
  have hpart : part ≤ grow part := hgrow part
  rw [hmore] at hfit ⊢
  refine ends_compressStep _ _ _ _ _ rfl ?raw ?coded ?abort
  case raw =>
    intro _ hle
    refine ⟨((hacc.called _ _ _).copyRaw _ _).store hcap hle, ?_⟩
    simp only [CompressState.store, CompressState.copyRaw, CompressState.called, List.sum_append,
      List.sum_singleton]
    omega
  case coded =>
    intro hpos hne
    have hsize : (compress (compressArgs inbuf param1 param2 workmem s part) s.world).ret ≠
        (compressArgs inbuf param1 param2 workmem s part).insize := by
      intro heq
      rw [heq] at hne
      exact hne (toSize_ofNat (show part < 2 ^ 64 by omega))
    obtain ⟨hout, hlong⟩ := hc _ _ hpos hsize
    have houtpart : (compressArgs inbuf param1 param2 workmem s part).outsize =
        min (getCompressBound part) s.outsize := rfl
    change _ ≤ ((grow part : ℕ) : ℤ) at hlong
    have hclen := toSize_clen s.outsize (by omega) hpos (by omega)
    refine ⟨(hacc.called _ _ _).store hcap hclen.2, ?_⟩
    simp only [CompressState.store, CompressState.called, List.sum_append, List.sum_singleton]
    omega
  case abort =>
    intro _ hlt
    omega

/-- A list of chunks with room for all codes, at any place of it. -/
theorem codesWithin_fold (hc : CodesWithin grow compress) (hgrow : ∀ n, n ≤ grow n)
    {chunkSizes done rest : List ℕ} {part : ℕ} {outsize : UInt64}
    (hfit : (chunkSizes.map grow).sum ≤ outsize.toNat) (hxs : chunkSizes = done ++ part :: rest)
    {s : CompressState σ}
    (hs : Accounts outsize.toNat done s ∧ s.sizes.sum ≤ (done.map grow).sum) :
    grow part ≤ s.outsize ∧
      Ends (fun s' => Accounts outsize.toNat (done ++ [part]) s' ∧
          s'.sizes.sum ≤ ((done ++ [part]).map grow).sum) (fun _ => False)
        (compressStep compress inbuf param1 param2 workmem s part) := by
  have hroom := hs.1.room_eq
  have hsum := hs.2
  rw [hxs] at hfit
  simp only [List.map_append, List.map_cons, List.sum_append, List.sum_cons] at hfit
  refine ⟨by omega, codesWithin_step hc hgrow outsize.toNat_lt hs ?_⟩
  simp only [List.map_append, List.map_cons, List.sum_append, List.sum_cons, List.map_nil,
    List.sum_nil]
  omega

/-- With room for all codes no compression is aborted. -/
theorem not_aborted_of_codesWithin (hc : CodesWithin grow compress) (hgrow : ∀ n, n ≤ grow n)
    {chunkSizes : List ℕ} (hlen : chunkSizes.length < 2 ^ 31) {outsize : UInt64}
    (hfit : (chunkSizes.map grow).sum ≤ outsize.toNat) {comprSizes : List ℕ} {compbuf : Mem}
    {w : σ} {r : CompressResult σ}
    (hr : lzbenchCompress compress inbuf param1 param2 workmem chunkSizes comprSizes compbuf
      outsize w = .ok r) : r.aborted = false := by
  refine lzbenchCompress_ok _ _ _ _ _ hlen hr (P := fun r => r.aborted = false)
    (I := fun _ => True) (J := fun _ => False) (Ends.mono (ends_foldlM
      (fun done s => Accounts outsize.toNat done s ∧ s.sizes.sum ≤ (done.map grow).sum) chunkSizes
      ?init ?step) (fun _ _ => trivial) fun _ h => h) (fun _ _ => rfl) (fun _ h => h.elim)
  case init => exact ⟨Accounts.init compbuf outsize w, by simp [compressInit]⟩
  case step =>
    intro done part rest s hxs hs
    exact (codesWithin_fold hc hgrow hfit hxs hs).2

theorem lzbenchCompress_not_aborted {n : ℕ} (hc : CodesWithin grow (compress.upTo n))
    (hgrow : ∀ n, n ≤ grow n) {chunkSizes : List ℕ} (hsize : ∀ part ∈ chunkSizes, part ≤ n)
    (hlen : chunkSizes.length < 2 ^ 31) {outsize : UInt64}
    (hfit : (chunkSizes.map grow).sum ≤ outsize.toNat) {comprSizes : List ℕ} {compbuf : Mem}
    {w : σ} {r : CompressResult σ}
    (hr : lzbenchCompress compress inbuf param1 param2 workmem chunkSizes comprSizes compbuf
      outsize w = .ok r) : r.aborted = false := by
  rw [← lzbenchCompress_upTo hsize] at hr
  exact not_aborted_of_codesWithin hc hgrow hlen hfit hr

/-- The codec where `p` holds of the call, which fails elsewhere. -/
def CompressFunc.onCalls (c : CompressFunc σ) (p : CodecArgs → Prop) [DecidablePred p] :
    CompressFunc σ := fun a w => if p a then c a w else ⟨0, a.outbuf, w⟩

/-- With room for all codes there are no other calls than those with room for theirs. -/
theorem lzbenchCompress_onCalls {p : CodecArgs → Prop} [DecidablePred p]
    (hc : CodesWithin grow (compress.onCalls p)) (hgrow : ∀ n, n ≤ grow n) {chunkSizes : List ℕ}
    (hbound : ∀ part ∈ chunkSizes, grow part ≤ getCompressBound part)
    (hp : ∀ (s : CompressState σ), ∀ part ∈ chunkSizes, grow part ≤ outpart s part →
      p (compressArgs inbuf param1 param2 workmem s part))
    (hlen : chunkSizes.length < 2 ^ 31) {outsize : UInt64}
    (hfit : (chunkSizes.map grow).sum ≤ outsize.toNat) (comprSizes : List ℕ) (outbuf : Mem)
    (w : σ) :
    lzbenchCompress (compress.onCalls p) inbuf param1 param2 workmem chunkSizes comprSizes outbuf
        outsize w =
      lzbenchCompress compress inbuf param1 param2 workmem chunkSizes comprSizes outbuf outsize
        w := by
  simp only [lzbenchCompress, take_chunkCount hlen]
  congr 3
  refine foldlM_congr_of_inv
    (fun done s => Accounts outsize.toNat done s ∧ s.sizes.sum ≤ (done.map grow).sum) chunkSizes
    ⟨Accounts.init outbuf outsize w, by simp [compressInit]⟩ fun done part rest s hxs hs => ?_
  have hmem : part ∈ chunkSizes := by
    rw [hxs]
    exact List.mem_append_right _ List.mem_cons_self
  obtain ⟨hroom, hstep⟩ := codesWithin_fold hc hgrow hfit hxs hs
  have hcall : compress.onCalls p (compressArgs inbuf param1 param2 workmem s part) s.world =
      compress (compressArgs inbuf param1 param2 workmem s part) s.world :=
    if_pos (hp s part hmem (le_min (hbound part hmem) hroom))
  exact ⟨by simp only [compressStep, hcall], hstep.ok⟩

end Room

/-! ## The two phases -/

section Phases

variable {env : Env σ} {params : LzbenchParams} {compress decompress : CompressFunc σ}
  {inbuf : Mem} {insize : ℕ} {comprsize : UInt64} {param1 param2 workmem fuel : ℕ}
  {chunkSizes : List ℕ}

/-- Decompression makes the input of what the compression left, if that was not aborted. -/
def CompressPhase.Restorable (decompress : CompressFunc σ) (inbuf : Mem)
    (param1 param2 workmem : ℕ) (chunkSizes : List ℕ) (s : CompressPhase σ) : Prop :=
  s.aborted = false → ∀ (decomp : Mem) (w : σ),
    let d := lzbenchDecompress decompress s.compbuf param1 param2 workmem chunkSizes s.comprSizes
      decomp w
    d.ret = chunkSizes.sum ∧ Mem.SameBytes d.outbuf 0 inbuf 0 chunkSizes.sum

theorem compressPhase_restorable
    (hback : GivesBack compress decompress inbuf param1 param2 workmem chunkSizes comprsize)
    (s : CompressPhase σ) :
    Ends (CompressPhase.Restorable decompress inbuf param1 param2 workmem chunkSizes)
      (fun _ => True)
      (compressPhase env params inbuf insize param1 param2 workmem chunkSizes compress comprsize
        fuel s) := by
  let K := CompressPhase.Restorable decompress inbuf param1 param2 workmem chunkSizes
  refine ends_compressPhase (I := fun _ => True) (J := fun _ => True) (K := K) trivial
    (fun _ _ _ _ => trivial) (fun _ _ => trivial) ?iter (fun _ _ _ => trivial)
    (fun _ hs => ⟨trivial, hs⟩) fuel trivial
  case iter =>
    intro s r _ hr hfalse decomp w
    have haborted : r.aborted = false := hfalse
    have hround := (hback s.comprSizes s.compbuf _ decomp w).ok r hr
    exact hround.resolve_left (by simp [haborted])

theorem compressPhase_not_aborted
    (hnever : ∀ comprSizes compbuf w r, lzbenchCompress compress inbuf param1 param2 workmem
      chunkSizes comprSizes compbuf comprsize w = .ok r → r.aborted = false)
    (s : CompressPhase σ) :
    Ends (fun c => c.aborted = false) (fun _ => True)
      (compressPhase env params inbuf insize param1 param2 workmem chunkSizes compress comprsize
        fuel s) := by
  refine ends_compressPhase (I := fun _ => True) (J := fun _ => True)
    (K := fun c => c.aborted = false) trivial (fun _ _ _ _ => trivial) (fun _ _ => trivial) ?iter
    (fun _ _ _ => trivial) (fun _ hs => ⟨trivial, hs⟩) fuel trivial
  case iter =>
    intro s r _ hr
    exact hnever _ _ _ r hr

/-- Every round leaves the input in the output buffer, so none of them finds an error. -/
theorem decompressPhase_verified {c : CompressPhase σ}
    (hc : c.Restorable decompress inbuf param1 param2 workmem chunkSizes)
    (haborted : c.aborted = false) (hsum : chunkSizes.sum = insize) (hobj : insize ≤ ptrdiffMax)
    {s : DecompressPhase σ} (h0 : s.decompError = false) :
    Ends (fun d => d.decompError = false) (fun e => e.1 = .hang)
      (decompressPhase env params inbuf insize param1 param2 workmem chunkSizes decompress
        c.comprSizes c.compbuf fuel s) := by
  let E : Stop × DecompressPhase σ → Prop := fun e => e.1 = .hang
  let K : DecompressPhase σ → Prop := fun s => s.decompError = false ∧ s.decomplen = insize ∧
    Mem.SameBytes inbuf 0 s.decomp 0 insize
  refine ends_doWhile_of_body (E := E) (I := fun s => s.decompError = false) (fun _ _ => rfl)
    (fun s hs => ?_) fuel h0
  have hinner : Ends K E (doWhile (fun s => (.hang, s))
      (fun s => .ok (decompressIter env param1 param2 workmem chunkSizes decompress c.comprSizes
        c.compbuf s))
      (fun s => s.laps.nanosec < params.dloopTime) fuel (decompressStart env s)) := by
    refine ends_doWhile_of_body (E := E) (I := fun s => s.decompError = false) (fun _ _ => rfl)
      (fun s hs => ?_) fuel hs
    obtain ⟨hret, hbytes⟩ := hc haborted s.decomp (env.getTime s.world).2
    rw [hsum] at hret hbytes
    exact (ends_ok _ E _).mpr ⟨hs, hs, hret, fun i hi => (hbytes i hi).symm⟩
  apply hinner.bind
  intro s hs
  obtain ⟨herror, hlen, hbytes⟩ := hs
  have hsize : toSize s.decomplen = insize := by
    rw [hlen, toSize_ofNat (lt_of_le_ptrdiffMax hobj)]
  simp [decompressFinish, hsize, hbytes, herror]

end Phases

/-! ## The run -/

section Run

variable {env : Env σ} {params : LzbenchParams} {fileSizes : List ℕ} {desc : CompressorDesc σ}
  {level : ℤ} {inbuf : Mem} {insize : ℕ} {comprsize : UInt64} {param1 fuel : ℕ}
  {compbuf decomp : Mem} {w : σ}

/-- Both functions of the compressor are a codec that gives back the chunks of these files. -/
def CompressorDesc.GivesBack (desc : CompressorDesc σ) (params : LzbenchParams)
    (fileSizes : List ℕ) (inbuf : Mem) (insize : ℕ) (comprsize : UInt64) (param1 : ℕ) : Prop :=
  ∀ compress decompress workmem chunkSizes, desc.compress = some compress →
    desc.decompress = some decompress →
    splitFiles (effectiveChunkSize params.chunkSize insize desc.maxBlockSize) fileSizes =
      some chunkSizes →
    Lzbench.GivesBack compress decompress inbuf param1 (toSize desc.additionalParam) workmem
      chunkSizes comprsize

/-- A row whose compression was not aborted is not marked as an error. -/
theorem Recorded.decompError_eq {compress decompress : CompressFunc σ} {chunkSizes : List ℕ}
    {workmem : ℕ} {rep : Report σ} {res : TestResult σ}
    (h : Recorded env params desc level inbuf insize comprsize param1 fuel decomp compress
      decompress chunkSizes workmem compbuf w rep res)
    (hback : GivesBack compress decompress inbuf param1 (toSize desc.additionalParam) workmem
      chunkSizes comprsize)
    (hsum : chunkSizes.sum = insize) (hobj : insize ≤ ptrdiffMax)
    (haborted : rep.compression.aborted = false) : rep.decompression.decompError = false := by
  have hphase := h.decompression
  by_cases honly : params.compressOnly = true
  · rw [if_pos honly] at hphase
    rw [hphase]
    rfl
  · rw [if_neg honly] at hphase
    have hrest := (compressPhase_restorable hback _).ok _ h.compression
    exact (decompressPhase_verified hrest haborted hsum hobj rfl).ok _ hphase

/-- A compression phase of the run ended with a call that was aborted. -/
def EndsAborted (env : Env σ) (params : LzbenchParams) (fileSizes : List ℕ)
    (desc : CompressorDesc σ) (inbuf : Mem) (insize : ℕ) (comprsize : UInt64) (param1 fuel : ℕ) :
    Prop :=
  ∃ compress workmem chunkSizes compbuf w, ∃ c : CompressPhase σ,
    desc.compress = some compress ∧
    splitFiles (effectiveChunkSize params.chunkSize insize desc.maxBlockSize) fileSizes =
      some chunkSizes ∧
    compressPhase env params inbuf insize param1 (toSize desc.additionalParam) workmem chunkSizes
      compress comprsize fuel (compressPhaseInit env compbuf w) = .ok c ∧ c.aborted = true

/-- The two phases on chunks that are given back. -/
theorem ends_measure_givesBack {compress decompress : CompressFunc σ} {workmem : ℕ}
    {chunkSizes : List ℕ} (hc : desc.compress = some compress)
    (hchunks : splitFiles (effectiveChunkSize params.chunkSize insize desc.maxBlockSize)
      fileSizes = some chunkSizes)
    (hback : GivesBack compress decompress inbuf param1 (toSize desc.additionalParam) workmem
      chunkSizes comprsize)
    (hsum : fileSizes.sum = insize) (hobj : insize ≤ ptrdiffMax) :
    Ends (fun res => ∀ rep, res.report = some rep → rep.compression.aborted = false →
        rep.decompression.decompError = false)
      (fun f => f.stop = .exitFailure →
        EndsAborted env params fileSizes desc inbuf insize comprsize param1 fuel)
      (measure env params desc level compress decompress inbuf insize comprsize param1
        (toSize desc.additionalParam) workmem chunkSizes fuel compbuf decomp w) := by
  have htotal : chunkSizes.sum = insize := (splitFiles_some hchunks).1.trans hsum
  refine ⟨?_, fun f hrun hexit => ?_⟩
  · refine (ends_measure (E := fun _ => True) ?_ ?_ (fun _ _ => trivial)
      (fun _ _ _ _ => trivial)).ok
    · intro buf w' _ rep hrep
      simp [unreported] at hrep
    · intro rep res hrec rep' hrep haborted
      obtain rfl : rep = rep' := Option.some.inj (hrec.report_eq.symm.trans hrep)
      exact hrec.decompError_eq hback htotal hobj haborted
  · rw [measure] at hrun
    cases hphase : compressPhase env params inbuf insize param1 (toSize desc.additionalParam)
        workmem chunkSizes compress comprsize fuel (compressPhaseInit env compbuf w) with
    | error e =>
      rw [hphase] at hrun
      cases e with
      | stop e =>
        cases hrun
        exact absurd hexit (compressPhase_ne_exit hphase)
      | tooSlow c => cases hrun
    | ok c =>
      by_contra hnever
      have haborted : c.aborted = false := by
        by_contra hab
        exact hnever ⟨compress, workmem, chunkSizes, compbuf, w, c, hc, hchunks, hphase,
          by simpa using hab⟩
      have hrest := (compressPhase_restorable hback _).ok c hphase
      by_cases honly : params.compressOnly = true
      · simp [hphase, honly] at hrun
      · simp only [hphase, honly] at hrun
        cases hd : decompressPhase env params inbuf insize param1 (toSize desc.additionalParam)
            workmem chunkSizes decompress c.comprSizes c.compbuf fuel
            (decompressPhaseInit env decomp c.world) with
        | ok d =>
          rw [hd] at hrun
          cases hrun
        | error e =>
          rw [hd] at hrun
          cases hrun
          have hhang := (decompressPhase_verified hrest haborted htotal hobj rfl).error e hd
          cases hhang.symm.trans hexit

/-- Whatever the clock and the parameters are, a run with a codec that gives the chunks back
marks no row as an error and does not exit, as long as there is room for the codes. -/
theorem ends_lzbenchTest_givesBack
    (hback : desc.GivesBack params fileSizes inbuf insize comprsize param1)
    (hsum : fileSizes.sum = insize) (hobj : insize ≤ ptrdiffMax) :
    Ends (fun res => ∀ rep, res.report = some rep → rep.compression.aborted = false →
        rep.decompression.decompError = false)
      (fun f => f.stop = .exitFailure →
        EndsAborted env params fileSizes desc inbuf insize comprsize param1 fuel)
      (lzbenchTest env params fileSizes desc level inbuf insize comprsize param1 fuel compbuf
        decomp w) := by
  simp only [lzbenchTest]
  split
  · rename_i compress decompress hc hd
    split
    · simp [unreported]
    · split
      · simp
      · rename_i chunkSizes hchunks
        exact ends_measure_givesBack hc hchunks (hback _ _ _ _ hc hd hchunks) hsum hobj
  · simp [unreported]

/-- Compression is not aborted, whatever the buffers held before. -/
def CompressorDesc.NeverAborts (desc : CompressorDesc σ) (params : LzbenchParams)
    (fileSizes : List ℕ) (inbuf : Mem) (insize : ℕ) (comprsize : UInt64) (param1 : ℕ) : Prop :=
  ∀ compress workmem chunkSizes, desc.compress = some compress →
    splitFiles (effectiveChunkSize params.chunkSize insize desc.maxBlockSize) fileSizes =
      some chunkSizes →
    ∀ comprSizes compbuf w r, lzbenchCompress compress inbuf param1 (toSize desc.additionalParam)
      workmem chunkSizes comprSizes compbuf comprsize w = .ok r → r.aborted = false

/-- With room for the codes, too, every row is the row of a success. -/
theorem ends_lzbenchTest_neverAborts
    (hback : desc.GivesBack params fileSizes inbuf insize comprsize param1)
    (hnever : desc.NeverAborts params fileSizes inbuf insize comprsize param1)
    (hsum : fileSizes.sum = insize) (hobj : insize ≤ ptrdiffMax) :
    Ends (fun res => ∀ rep, res.report = some rep → rep.compression.aborted = false ∧
        rep.decompression.decompError = false)
      (fun f => f.stop ≠ .exitFailure)
      (lzbenchTest env params fileSizes desc level inbuf insize comprsize param1 fuel compbuf
        decomp w) := by
  refine ⟨fun res hrun rep hrep => ?_, fun f hrun hexit => ?_⟩
  · obtain ⟨compress, decompress, chunks, workmem, buf, w', hc, hd, hchunks, hrec⟩ :=
      lzbenchTest_recorded hrun hrep
    have haborted : rep.compression.aborted = false :=
      (compressPhase_not_aborted (hnever _ workmem _ hc hchunks) _).ok _ hrec.compression
    exact ⟨haborted,
      (ends_lzbenchTest_givesBack hback hsum hobj).ok res hrun rep hrep haborted⟩
  · obtain ⟨compress, workmem, chunks, buf, w', c, hc, hchunks, hphase, haborted⟩ :=
      (ends_lzbenchTest_givesBack hback hsum hobj).error f hrun hexit
    have hnot : c.aborted = false :=
      (compressPhase_not_aborted (hnever _ workmem _ hc hchunks) _).ok _ hphase
    simp [haborted] at hnot

/-- The list of chunks is short enough to be counted. -/
def FewChunks (params : LzbenchParams) (fileSizes : List ℕ) (desc : CompressorDesc σ)
    (insize : ℕ) : Prop :=
  ∀ chunkSizes, splitFiles (effectiveChunkSize params.chunkSize insize desc.maxBlockSize)
    fileSizes = some chunkSizes → chunkSizes.length < 2 ^ 31

theorem CompressorDesc.givesBack_of_upTo {n : ℕ}
    (hc : ∀ compress decompress, desc.compress = some compress → desc.decompress = some decompress →
      RoundTrips (compress.upTo n) decompress)
    (hsum : fileSizes.sum = insize) (hn : insize ≤ n) (hobj : insize ≤ ptrdiffMax)
    (hfew : FewChunks params fileSizes desc insize) :
    desc.GivesBack params fileSizes inbuf insize comprsize param1 := by
  intro compress decompress workmem chunkSizes hcompress hdecompress hchunks
  obtain ⟨htotal, hall⟩ := splitFiles_some hchunks
  have hsize : chunkSizes.sum = insize := htotal.trans hsum
  refine Lzbench.givesBack_of_upTo (hc _ _ hcompress hdecompress) (fun part hpart => ?_)
    (fun part hpart => (hall part hpart).1) (hsize.trans_le hobj) (hfew _ hchunks) comprsize
  exact (List.le_sum_of_mem hpart).trans (hsize.trans_le hn)

end Run

end Lzbench
