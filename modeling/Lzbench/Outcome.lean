import Lzbench.Store
import Lzbench.Verification

/-!
# What a run records is a function of the input

Under a codec that is a function of its input bytes, sizes and parameters, a recorded
row does not depend on the clock, on what the buffers held before, or on how often the
calls were repeated.  The compressed size is that of the codes; the verdict is whether
the codes decode, into a clear buffer, to the input.

Repeating a call is harmless since compression stores the same codes again and
decompression overwrites the same bytes with the same values.

## Main definitions

* `storeOf`, `decodedOf` — the codes of a chunk list, and what they decode to.
* `Reproduces` — the decoded bytes are the input.
* `Recorded.outcome` — a recorded row, in these terms.
-/

namespace Lzbench

open Imperative

variable {σ : Type}

/-- The chunks that the `int` count takes in. -/
def countedChunks (chunkSizes : List ℕ) : List ℕ :=
  chunkSizes.take (chunkCount chunkSizes.length).toNat

theorem length_countedChunks (chunkSizes : List ℕ) :
    (countedChunks chunkSizes).length = (chunkCount chunkSizes.length).toNat := by
  rw [countedChunks, List.length_take, Nat.min_eq_left (chunkCount_le _)]

theorem countedChunks_eq {chunkSizes : List ℕ} (h : chunkSizes.length < 2 ^ 31) :
    countedChunks chunkSizes = chunkSizes := take_chunkCount h

/-- What the compression stores. -/
def storeOf (F : CodecFn) (param1 param2 : ℕ) (inbuf : Mem) (comprsize : UInt64)
    (chunkSizes : List ℕ) : Encoded :=
  encode F param1 param2 comprsize.toNat (chunkData inbuf 0 (countedChunks chunkSizes))

/-- The codes as the decompression takes them: a chunk that was not stored has the
empty code. -/
def codesOf (F : CodecFn) (param1 param2 : ℕ) (inbuf : Mem) (comprsize : UInt64)
    (chunkSizes : List ℕ) : List (List UInt8) :=
  (storeOf F param1 param2 inbuf comprsize chunkSizes).padded (countedChunks chunkSizes).length

/-- What the decompression returns and writes. -/
def decodedOf (F : CodecFn) (param1 param2 : ℕ) (inbuf : Mem) (comprsize : UInt64)
    (chunkSizes : List ℕ) : ℤ × Patch :=
  let codes := codesOf F param1 param2 inbuf comprsize chunkSizes
  decode F param1 param2 0 0 ((codes.zip chunkSizes).take (chunkCount codes.length).toNat)

/-- What is returned is the size of the input, and what is written into a clear buffer
leaves the input there. -/
def Reproduces (inbuf : Mem) (insize : ℕ) (d : ℤ × Patch) : Prop :=
  toSize d.1 = insize ∧ Mem.SameBytes inbuf 0 (d.2.onto fun _ => 0) 0 insize

instance (inbuf : Mem) (insize : ℕ) (d : ℤ × Patch) : Decidable (Reproduces inbuf insize d) :=
  inferInstanceAs (Decidable (_ ∧ _))

/-- The compressor is the codec `F`. -/
structure Implements (F : CodecFn) (desc : CompressorDesc σ) : Prop where
  compress : ∀ c, desc.compress = some c → Computes F.compress c
  decompress : ∀ c, desc.decompress = some c → Computes F.decompress c

section Phases

variable {F : CodecFn} {env : Env σ} {params : LzbenchParams} {inbuf : Mem} {insize : ℕ}
  {comprsize : UInt64} {param1 param2 workmem fuel : ℕ} {chunkSizes : List ℕ}

/-- The codes are stored, and the stored sizes are theirs. -/
structure Stored (e : Encoded) (n : ℕ) (s : CompressPhase σ) : Prop where
  sizes_eq : s.comprSizes = (e.padded n).map List.length
  aborted_eq : s.aborted = e.aborted
  complen_eq : s.complen = e.ret
  bytes_eq : s.compbuf.bytes 0 e.codes.flatten.length = e.codes.flatten

/-- However often the compression is repeated, it leaves the codes. -/
theorem compressPhase_stored {compress : CompressFunc σ} (hc : Computes F.compress compress)
    (compbuf : Mem) (w : σ) :
    Ends (Stored (storeOf F param1 param2 inbuf comprsize chunkSizes)
        (countedChunks chunkSizes).length) (fun _ => True)
      (compressPhase env params inbuf insize param1 param2 workmem chunkSizes compress comprsize
        fuel (compressPhaseInit env compbuf w)) := by
  let e := storeOf F param1 param2 inbuf comprsize chunkSizes
  let n := (countedChunks chunkSizes).length
  refine ends_compressPhase (I := fun s => s.comprSizes = [] ∨ Stored e n s)
    (J := fun s => s.comprSizes = [] ∨ Stored e n s) (K := Stored e n)
    trivial (fun _ _ _ _ => trivial) ?start ?iter (fun _ _ _ => trivial) ?finish fuel (Or.inl rfl)
  case start => exact fun s hs => hs.imp id fun h => ⟨h.1, h.2, h.3, h.4⟩
  case iter =>
    intro s r hs hr
    have hprev : s.comprSizes = [] ∨ s.comprSizes = (e.padded n).map List.length := by
      rcases hs with (hs | hs) | hs
      · exact Or.inl hs
      · exact Or.inr hs.sizes_eq
      · exact Or.inr hs.sizes_eq
    obtain ⟨hsizes, haborted, hret, hbytes⟩ := lzbenchCompress_encode hc rfl rfl hprev hr
    exact ⟨hsizes, haborted, hret, hbytes⟩
  case finish =>
    intro s hs
    have hdone : Stored e n { s with laps := s.laps.finish.count } := ⟨hs.1, hs.2, hs.3, hs.4⟩
    exact ⟨Or.inr hdone, hdone⟩

/-- The bytes compared do not depend on what a clear buffer holds beyond them. -/
theorem sameBytes_onto_iff (d : Patch) {m : Mem} (hzero : m.Zeroed insize) :
    Mem.SameBytes inbuf 0 (d.onto m) 0 insize ↔
      Mem.SameBytes inbuf 0 (d.onto fun _ => 0) 0 insize := by
  have heq : ∀ i < insize, d.onto m (0 + i) = d.onto (fun _ => 0) (0 + i) := fun i hi =>
    Patch.onto_congr d (by rw [Nat.zero_add, hzero i hi])
  constructor
  · exact fun h i hi => (h i hi).trans (heq i hi)
  · exact fun h i hi => (h i hi).trans (heq i hi).symm

/-- However often the decompression is repeated, the verdict is the same. -/
theorem decompressPhase_verdict {decompress : CompressFunc σ}
    (hd : Computes F.decompress decompress) {codes : List (List UInt8)} {comprSizes : List ℕ}
    (hsizes : comprSizes = codes.map List.length) {compbuf : Mem}
    (hbytes : compbuf.bytes 0 codes.flatten.length = codes.flatten) {d : ℤ × Patch}
    (hdecode : d = decode F param1 param2 0 0
      ((codes.zip chunkSizes).take (chunkCount codes.length).toNat))
    {decomp : Mem} (hzero : decomp.Zeroed insize) (w : σ) :
    Ends (fun s => s.decompError = !decide (Reproduces inbuf insize d)) (fun _ => True)
      (decompressPhase env params inbuf insize param1 param2 workmem chunkSizes decompress
        comprSizes compbuf fuel (decompressPhaseInit env decomp w)) := by
  have hcall := fun outbuf w => lzbenchDecompress_decode hd workmem hsizes hbytes outbuf w
    hdecode
  refine ends_decompressPhase
    (I := fun s => s.decomp.Zeroed insize ∧ s.decompError = false)
    (J := fun s => s.decomp.Zeroed insize ∧ s.decompError = false)
    (K := fun s => (∃ m, Mem.Zeroed m insize ∧ s.decomp = d.2.onto m) ∧ s.decomplen = d.1 ∧
      s.decompError = false)
    (fun _ _ _ _ => trivial) (fun _ hs => hs) ?iter ?finish fuel ⟨hzero, rfl⟩
  case iter =>
    intro s hs
    obtain ⟨hret, hout⟩ := hcall s.decomp (env.getTime s.world).2
    rcases hs with ⟨hclear, herror⟩ | ⟨⟨m, hm, hdecomp⟩, -, herror⟩
    · exact ⟨⟨s.decomp, hclear, hout⟩, hret, herror⟩
    · rw [hdecomp, Patch.onto_onto] at hout
      exact ⟨⟨m, hm, by simpa [decompressIter, hdecomp] using hout⟩, hret, herror⟩
  case finish =>
    rintro s s' ⟨⟨m, hm, hdecomp⟩, hlen, herror⟩ hs'
    obtain ⟨herror', hdecomp', -⟩ := decompressFinish_ok hs'
    refine ⟨fun hfalse => ⟨?_, hfalse⟩, ?_⟩
    · rw [hdecomp']
      exact Mem.zeroed_fill _ _
    · rw [herror', herror, hlen, hdecomp, Bool.false_or]
      simp only [sameBytes_onto_iff d.2 hm, Reproduces, ne_eq, eq_comm (a := insize)]
      by_cases hsize : toSize d.1 = insize
      · simp [hsize]
      · simp [hsize]

end Phases

section Rows

variable {F : CodecFn} {env : Env σ} {params : LzbenchParams} {fileSizes : List ℕ}
  {desc : CompressorDesc σ} {level : ℤ} {inbuf : Mem} {insize : ℕ} {comprsize : UInt64}
  {param1 fuel : ℕ} {compbuf decomp : Mem} {w : σ}

/-- A recorded row as a function of the codec and the input. -/
theorem Recorded.outcome (hF : Implements F desc) {compress decompress : CompressFunc σ}
    (hc : desc.compress = some compress) (hd : desc.decompress = some decompress)
    (hzero : decomp.Zeroed insize) {chunkSizes : List ℕ} {workmem : ℕ} {rep : Report σ}
    {res : TestResult σ}
    (h : Recorded env params desc level inbuf insize comprsize param1 fuel decomp compress
      decompress chunkSizes workmem compbuf w rep res) :
    rep.compression.aborted =
        (storeOf F param1 (toSize desc.additionalParam) inbuf comprsize chunkSizes).aborted ∧
      rep.row.col4_comprsize =
        toSize (storeOf F param1 (toSize desc.additionalParam) inbuf comprsize chunkSizes).ret ∧
      rep.decompression.decompError = (!params.compressOnly && !decide (Reproduces inbuf insize
        (decodedOf F param1 (toSize desc.additionalParam) inbuf comprsize chunkSizes))) := by
  have hstored := (compressPhase_stored (hF.compress _ hc) compbuf w).ok _ h.compression
  refine ⟨hstored.aborted_eq, ?_, ?_⟩
  · rw [h.row]
    exact congrArg toSize hstored.complen_eq
  · have hphase := h.decompression
    by_cases honly : params.compressOnly = true
    · rw [if_pos honly] at hphase
      rw [hphase, honly]
      rfl
    · rw [if_neg honly] at hphase
      have hbytes := hstored.bytes_eq
      rw [← Encoded.flatten_padded _ (countedChunks chunkSizes).length] at hbytes
      rw [(decompressPhase_verdict (hF.decompress _ hd) hstored.sizes_eq hbytes rfl hzero _).ok _
        hphase]
      simp only [honly, Bool.not_false, Bool.true_and]
      rfl

end Rows

end Lzbench
