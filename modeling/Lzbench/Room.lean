import Lzbench.Codec
import Mathlib.Algebra.BigOperators.Group.List.Basic

/-!
# The room that three wrappers pass on

`lzbench_compress` gives a compressor `outsize` bytes.  `lzbench_lzma_compress` takes its
header off that, in unsigned arithmetic; `lzbench_density_compress` passes on the size that
is safe for an *input* of `outsize` bytes; and the stream of `lzbench_csc_compress` takes
whatever it is handed.

The libraries are parameters.  Each wrapper comes with the room it lets its library write
in, measured from `outbuf`, and with the fact that this is all that is written.

## Main definitions

* `lzbenchLzmaCompress`, `lzbenchDensityCompress`, `lzbenchCscCompress` — the wrappers.
* `lzmaRoom`, `densityRoom`, `cscRoom` — the room granted.
* `rooms_within_iff` — when it is at most `outsize`.
-/

namespace Lzbench

open Imperative

variable {σ : Type}

/-! ## `lzbench_lzma_compress` -/

/-- `LZMA_PROPS_SIZE`. -/
def lzmaPropsSize : ℕ := 5

/-- The arguments of `LzmaEncode`; `dest` and `propsEncoded` are offsets in the output
buffer. -/
structure LzmaEncodeArgs where
  dest : ℕ
  destLen : ℕ
  src : List UInt8
  level : ℤ
  propsEncoded : ℕ
  propsSize : ℕ
  writeEndMark : ℤ

/-- What `LzmaEncode` leaves: the bytes at `dest` and at `propsEncoded`, and the length. -/
structure LzmaEncodeResult (σ : Type) where
  res : ℤ
  destLen : ℕ
  dest : Patch
  props : Patch
  world : σ

/-- `LzmaEncode`, which stays within the two sizes it is given. -/
structure LzmaEncode (σ : Type) where
  encode : LzmaEncodeArgs → σ → LzmaEncodeResult σ
  dest_within : ∀ a w, (encode a w).dest.Within a.destLen
  props_within : ∀ a w, (encode a w).props.Within a.propsSize

/-- The call of `LzmaEncode`. -/
def lzmaCall (a : CodecArgs) : LzmaEncodeArgs where
  dest := a.outpos + lzmaPropsSize
  destLen := subSize a.outsize lzmaPropsSize
  src := a.input
  level := toInt32 a.param1
  propsEncoded := a.outpos
  propsSize := lzmaPropsSize
  writeEndMark := 0

/-- `lzbench_lzma_compress`. -/
def lzbenchLzmaCompress (lib : LzmaEncode σ) : CompressFunc σ := fun a w =>
  let call := lzmaCall a
  let r := lib.encode call w
  let out := (r.dest.shift call.dest).onto ((r.props.shift call.propsEncoded).onto a.outbuf)
  ⟨if r.res ≠ 0 then 0 else toInt64 (addSize lzmaPropsSize r.destLen), out, r.world⟩

/-- The header, and the capacity given to the encoder behind it. -/
def lzmaRoom (a : CodecArgs) : ℕ := lzmaPropsSize + (lzmaCall a).destLen

theorem lzbenchLzmaCompress_within (lib : LzmaEncode σ) (a : CodecArgs) (w : σ) :
    Mem.WritesWithin a.outbuf (lzbenchLzmaCompress lib a w).out a.outpos (lzmaRoom a) := by
  have hprops := Patch.writesWithin_onto_shift (lib.props_within (lzmaCall a) w) a.outbuf a.outpos
  have hdest := Patch.writesWithin_onto_shift (lib.dest_within (lzmaCall a) w)
    ((((lib.encode (lzmaCall a) w).props).shift a.outpos).onto a.outbuf)
    (a.outpos + lzmaPropsSize)
  refine (hprops.mono le_rfl ?_).trans (hdest.mono (Nat.le_add_right _ _) ?_)
  · exact Nat.add_le_add_left (Nat.le_add_right _ _) _
  · exact (Nat.add_assoc _ _ _).le

/-! ## `lzbench_density_compress` -/

/-- The size of `density_header`. -/
def densityHeaderSize : ℕ := 8

/-- The size of a signature, of each of the three algorithms. -/
def densitySignatureSize : ℕ := 8

/-- `DENSITY_CHAMELEON_MAXIMUM_COMPRESSED_UNIT_SIZE`, which is the one of lion as well. -/
def densityChameleonUnitSize : ℕ := densitySignatureSize + 64 * 4

/-- `DENSITY_CHEETAH_MAXIMUM_COMPRESSED_UNIT_SIZE`. -/
def densityCheetahUnitSize : ℕ := densitySignatureSize + 32 * 4

/-- The longest output of an algorithm that has `signatures` full signatures for its
input. -/
def densityLongestOutput (inputSize signatures : ℕ) : ℕ :=
  (densityHeaderSize + densitySignatureSize * (1 + signatures) + densitySignatureSize +
    inputSize) % 2 ^ 64

/-- `density_compress_safe_size`. -/
def densityCompressSafeSize (inputSize : ℕ) : ℕ :=
  let slack := max (max densityChameleonUnitSize densityCheetahUnitSize) densityChameleonUnitSize
  let chameleon := densityLongestOutput inputSize (inputSize / 2 ^ 8)
  let cheetah := densityLongestOutput inputSize (inputSize / 2 ^ 7)
  let lion := densityLongestOutput inputSize (inputSize * 7 % 2 ^ 64 / 2 ^ 8)
  addSize (max (max chameleon cheetah) lion) slack

/-- The arguments of `density_compress`. -/
structure DensityArgs where
  input : List UInt8
  outputSize : ℕ
  algorithm : ℤ

/-- `density_processing_result`, with the bytes written. -/
structure DensityResult (σ : Type) where
  state : ℕ
  bytesWritten : ℕ
  out : Patch
  world : σ

/-- `density_compress`, which stays within the output size it is given. -/
structure Density (σ : Type) where
  compress : DensityArgs → σ → DensityResult σ
  within : ∀ a w, (compress a w).out.Within a.outputSize

/-- The call of `density_compress`. -/
def densityCall (a : CodecArgs) : DensityArgs where
  input := a.input
  outputSize := densityCompressSafeSize a.outsize
  algorithm := toInt32 a.param1

/-- `lzbench_density_compress`. -/
def lzbenchDensityCompress (lib : Density σ) : CompressFunc σ := fun a w =>
  let r := lib.compress (densityCall a) w
  ⟨if r.state ≠ 0 then 0 else toInt64 r.bytesWritten, (r.out.shift a.outpos).onto a.outbuf,
    r.world⟩

/-- The output size given to the library. -/
def densityRoom (a : CodecArgs) : ℕ := (densityCall a).outputSize

theorem lzbenchDensityCompress_within (lib : Density σ) (a : CodecArgs) (w : σ) :
    Mem.WritesWithin a.outbuf (lzbenchDensityCompress lib a w).out a.outpos (densityRoom a) :=
  Patch.writesWithin_onto_shift (lib.within (densityCall a) w) a.outbuf a.outpos

/-! ## `lzbench_csc_compress` -/

/-- `CSC_PROP_SIZE`. -/
def cscPropSize : ℕ := 4 + 3 + 3

/-- The encoder: the properties as they are written, and the blocks that it hands to the
output stream, for a dictionary size and a level. -/
structure CscEnc (σ : Type) where
  writeProperties : ℕ → ℤ → List UInt8
  encode : ℕ → ℤ → List UInt8 → σ → List (List UInt8) × σ
  length_properties : ∀ dictSize level, (writeProperties dictSize level).length = cscPropSize

/-- `MemSeqStream` as an output stream, with the buffer it points into. -/
structure MemSeqStream where
  buf : ℕ
  len : ℕ
  out : Mem

/-- `stdio_write`. -/
def stdioWrite (s : MemSeqStream) (block : List UInt8) : MemSeqStream where
  buf := s.buf + block.length
  len := addSize s.len block.length
  out := s.out.copy s.buf (Mem.ofList block) 0 block.length

/-- `dict_size`. -/
def cscDictSize (a : CodecArgs) : ℕ := min (if a.param2 = 0 then 2 ^ 26 else a.param2) a.insize

/-- The blocks that the encoder writes. -/
def cscBlocks (lib : CscEnc σ) (a : CodecArgs) (w : σ) : List (List UInt8) :=
  (lib.encode (toUInt32 (cscDictSize a)) (toInt32 a.param1) a.input w).1

/-- The output stream after the properties. -/
def cscOpen (lib : CscEnc σ) (a : CodecArgs) : MemSeqStream where
  buf := a.outpos + cscPropSize
  len := cscPropSize
  out := a.outbuf.copy a.outpos
    (Mem.ofList (lib.writeProperties (toUInt32 (cscDictSize a)) (toInt32 a.param1))) 0 cscPropSize

/-- The output stream at the end. -/
def cscStream (lib : CscEnc σ) (a : CodecArgs) (w : σ) : MemSeqStream :=
  (cscBlocks lib a w).foldl stdioWrite (cscOpen lib a)

/-- `lzbench_csc_compress`. -/
def lzbenchCscCompress (lib : CscEnc σ) : CompressFunc σ := fun a w =>
  let s := cscStream lib a w
  ⟨toInt64 s.len, s.out,
    (lib.encode (toUInt32 (cscDictSize a)) (toInt32 a.param1) a.input w).2⟩

/-- How far the stream has come. -/
def cscRoom (lib : CscEnc σ) (a : CodecArgs) (w : σ) : ℕ := (cscStream lib a w).buf - a.outpos

/-- The stream takes every block, and writes where it has come to. -/
theorem foldl_stdioWrite (blocks : List (List UInt8)) (s : MemSeqStream) :
    (blocks.foldl stdioWrite s).buf = s.buf + (blocks.map List.length).sum ∧
      Mem.WritesWithin s.out (blocks.foldl stdioWrite s).out s.buf
        (blocks.map List.length).sum := by
  induction blocks generalizing s with
  | nil => exact ⟨rfl, Mem.writesWithin_refl _ _ _⟩
  | cons block blocks ih =>
    obtain ⟨hbuf, hout⟩ := ih (stdioWrite s block)
    have hfirst := Mem.writesWithin_copy s.out s.buf (Mem.ofList block) 0 block.length
    rw [List.foldl_cons, List.map_cons, List.sum_cons]
    refine ⟨hbuf.trans (Nat.add_assoc _ _ _), (hfirst.mono le_rfl ?_).trans (hout.mono ?_ ?_)⟩
    · exact Nat.add_le_add_left (Nat.le_add_right _ _) _
    · exact Nat.le_add_right _ _
    · exact (Nat.add_assoc _ _ _).le

theorem cscRoom_eq (lib : CscEnc σ) (a : CodecArgs) (w : σ) :
    cscRoom lib a w = cscPropSize + ((cscBlocks lib a w).map List.length).sum := by
  rw [cscRoom, cscStream, (foldl_stdioWrite _ _).1, cscOpen, Nat.add_assoc,
    Nat.add_sub_cancel_left]

theorem lzbenchCscCompress_within (lib : CscEnc σ) (a : CodecArgs) (w : σ) :
    Mem.WritesWithin a.outbuf (lzbenchCscCompress lib a w).out a.outpos (cscRoom lib a w) := by
  have hprops := Mem.writesWithin_copy a.outbuf a.outpos
    (Mem.ofList (lib.writeProperties (toUInt32 (cscDictSize a)) (toInt32 a.param1))) 0 cscPropSize
  have hblocks := (foldl_stdioWrite (cscBlocks lib a w) (cscOpen lib a)).2
  rw [cscRoom_eq]
  refine (hprops.mono le_rfl ?_).trans (hblocks.mono (Nat.le_add_right _ _) ?_)
  · exact Nat.add_le_add_left (Nat.le_add_right _ _) _
  · exact (Nat.add_assoc _ _ _).le

/-! ## The three rooms -/

/-- The header is taken off only where there is room for it. -/
theorem lzmaRoom_le_iff {a : CodecArgs} (h : a.outsize < 2 ^ 64) :
    lzmaRoom a ≤ a.outsize ↔ lzmaPropsSize ≤ a.outsize := by
  by_cases hle : lzmaPropsSize ≤ a.outsize
  · have hsub : subSize a.outsize lzmaPropsSize = a.outsize - lzmaPropsSize :=
      subSize_of_le hle h
    simp only [lzmaRoom, lzmaCall, hsub]
    omega
  · simp only [lzmaRoom]
    omega

theorem densityLongestOutput_of_lt {n k : ℕ} (h : n + 8 * k + 24 < 2 ^ 64) :
    densityLongestOutput n k = n + 8 * k + 24 := by
  simp only [densityLongestOutput, densityHeaderSize, densitySignatureSize]
  omega

/-- A safe size is larger than its input. -/
theorem lt_densityCompressSafeSize {n : ℕ} (h : n ≤ ptrdiffMax) :
    n < densityCompressSafeSize n := by
  simp only [ptrdiffMax] at h
  have hlongest : ∀ k, k < 2 ^ 57 → n ≤ densityLongestOutput n k ∧
      densityLongestOutput n k < 2 ^ 63 + 2 ^ 61 := by
    intro k hk
    rw [densityLongestOutput_of_lt (by omega)]
    omega
  have hchameleon := hlongest (n / 2 ^ 8) (by omega)
  have hcheetah := hlongest (n / 2 ^ 7) (by omega)
  have hlion := hlongest (n * 7 % 2 ^ 64 / 2 ^ 8) (by omega)
  have hslack : densityChameleonUnitSize = 264 ∧ densityCheetahUnitSize = 136 := by decide
  rw [densityCompressSafeSize]
  generalize densityLongestOutput n (n / 2 ^ 8) = chameleon at hchameleon ⊢
  generalize densityLongestOutput n (n / 2 ^ 7) = cheetah at hcheetah ⊢
  generalize densityLongestOutput n (n * 7 % 2 ^ 64 / 2 ^ 8) = lion at hlion ⊢
  rw [addSize_of_lt (by omega)]
  omega

/-- The room is at most `outsize` for `lzma` where the header fits, for `density` never, and
for `csc` where the properties and the blocks of the encoder fit. -/
theorem rooms_within_iff (a : CodecArgs) (hout : a.outsize ≤ ptrdiffMax) (lib : CscEnc σ)
    (w : σ) :
    (lzmaRoom a ≤ a.outsize ↔ lzmaPropsSize ≤ a.outsize) ∧
      (densityRoom a ≤ a.outsize ↔ False) ∧
      (cscRoom lib a w ≤ a.outsize ↔
        cscPropSize + ((cscBlocks lib a w).map List.length).sum ≤ a.outsize) := by
  refine ⟨lzmaRoom_le_iff (lt_of_le_ptrdiffMax hout), ?_, by rw [cscRoom_eq]⟩
  have hlt : a.outsize < densityRoom a := lt_densityCompressSafeSize hout
  exact iff_of_false (by omega) id

/-- An encoder that hands out one block.  The block and the properties are arbitrary: no byte of
them is looked at. -/
def oneBlock (block : List UInt8) : CscEnc Unit where
  writeProperties _ _ := List.replicate cscPropSize 0
  encode _ _ _ w := ([block], w)
  length_properties _ _ := rfl

/-- A call with an output of `outsize` bytes. -/
def callWith (outsize : ℕ) : CodecArgs := ⟨fun _ => 0, 0, 1, fun _ => 0, 0, outsize, 0, 0, 0⟩

/-- An output of 14 bytes and a block of five: one too many for the stream. -/
theorem rooms_within_fourteen :
    (lzmaRoom (callWith 14) ≤ 14 ↔ lzmaPropsSize ≤ 14) ∧ (densityRoom (callWith 14) ≤ 14 ↔ False) ∧
      (cscRoom (oneBlock [1, 2, 3, 4, 5]) (callWith 14) () ≤ 14 ↔
        cscPropSize + ((cscBlocks (oneBlock [1, 2, 3, 4, 5]) (callWith 14) ()).map
          List.length).sum ≤ 14) :=
  rooms_within_iff (callWith 14) (by decide) (oneBlock [1, 2, 3, 4, 5]) ()

/-- With four bytes left, each of the three grants more. -/
theorem rooms_exceed : ¬ lzmaRoom (callWith 4) ≤ (callWith 4).outsize ∧
    ¬ densityRoom (callWith 4) ≤ (callWith 4).outsize ∧
    ¬ cscRoom (oneBlock []) (callWith 4) () ≤ (callWith 4).outsize := by
  decide

end Lzbench
