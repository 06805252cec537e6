import Lzbench.Basic
import Lzbench.Lib.Memory

/-!
# Codecs as the benchmark calls them

A codec is a pair of functions of the type `compress_func`.  Everything outside the
benchmark that a call may read or change, such as the clock, a library's statics or
the contents of `workmem`, is a state `σ` threaded through the calls, so a codec of
this type may answer differently every time it is called with the same arguments.
What a theorem assumes of a codec is stated as a contract on its calls.

A call sees both whole buffers and its two pointers.  It returns its `int64_t`
result, the output buffer it leaves and the new state.

## Main definitions

* `CompressFunc`, `CompressorDesc` — `compress_func` and `compressor_desc_t`.
* `NeverExceeds` — a compressor returns at most the output size it is given.
* `CodecFn` — a codec that is a function of its input bytes, sizes and parameters.
-/

namespace Lzbench

open Imperative

variable {σ : Type}

/-- The arguments of one codec call; `inpos` and `outpos` are the pointers. -/
structure CodecArgs where
  inbuf : Mem
  inpos : ℕ
  insize : ℕ
  outbuf : Mem
  outpos : ℕ
  outsize : ℕ
  param1 : ℕ
  param2 : ℕ
  workmem : ℕ

namespace CodecArgs

/-- The bytes a call is asked to read. -/
def input (a : CodecArgs) : List UInt8 := a.inbuf.bytes a.inpos a.insize

end CodecArgs

/-- What one codec call leaves behind. -/
structure CodecResult (σ : Type) where
  ret : ℤ
  out : Mem
  world : σ

/-- `compress_func`. -/
abbrev CompressFunc (σ : Type) := CodecArgs → σ → CodecResult σ

/-- `compressor_desc_t`.  `workmem` is a pointer, of which only the value matters
here; `0` is `NULL`. -/
structure CompressorDesc (σ : Type) where
  name : String
  version : String
  firstLevel : ℤ
  lastLevel : ℤ
  additionalParam : ℤ
  maxBlockSize : ℤ
  compress : Option (CompressFunc σ)
  decompress : Option (CompressFunc σ)
  init : Option (ℕ → ℕ → ℕ → σ → ℕ × σ)
  deinit : Option (ℕ → σ → σ)

/-- `lzbench_memcpy`, the decoder of the baseline. -/
def lzbenchMemcpy : CompressFunc σ := fun a w =>
  ⟨toInt64 a.insize, a.outbuf.copy a.outpos a.inbuf a.inpos a.insize, w⟩

/-- `lzbench_return_0`, the encoder of the baseline: every chunk is stored raw. -/
def lzbenchReturn0 : CompressFunc σ := fun a w => ⟨0, a.outbuf, w⟩

/-- The compressor never returns more than the output size it is given. -/
def NeverExceeds (compress : CompressFunc σ) : Prop :=
  ∀ a w, (compress a w).ret ≤ a.outsize

/-- The compressor fails or does not expand its chunk. -/
def NeverExpands (compress : CompressFunc σ) : Prop :=
  ∀ a w, (compress a w).ret ≤ a.insize

/-- The compressor's result depends on its input bytes alone, and is `f` of them. -/
def ReturnsOf (f : List UInt8 → ℤ) (compress : CompressFunc σ) : Prop :=
  ∀ a w, (compress a w).ret = f a.input

/-- One direction of a codec as a mathematical function: the result and the bytes
written, from the input bytes, the output size and the two parameters. -/
abbrev CodeFn := List UInt8 → ℕ → ℕ → ℕ → ℤ × Patch

/-- The call behaves as `g` says, whatever the output buffer holds and whatever
happened before. -/
def Computes (g : CodeFn) (c : CompressFunc σ) : Prop :=
  ∀ a w, (c a w).ret = (g a.input a.outsize a.param1 a.param2).1 ∧
    (c a w).out = ((g a.input a.outsize a.param1 a.param2).2.shift a.outpos).onto a.outbuf

/-- A codec whose two directions are functions of exactly their input bytes, sizes
and parameters.  The bytes a compressor returns are its output, so it writes them;
otherwise, either direction may write anything.  Results are of type `int64_t`. -/
structure CodecFn where
  compress : CodeFn
  decompress : CodeFn
  compress_lt : ∀ input outsize p1 p2, (compress input outsize p1 p2).1 < 2 ^ 63
  compress_covers : ∀ input outsize p1 p2,
    (compress input outsize p1 p2).2.Covers (compress input outsize p1 p2).1.toNat
  decompress_ge : ∀ input outsize p1 p2, -2 ^ 63 ≤ (decompress input outsize p1 p2).1

/-- The codec function as the benchmark calls it. -/
def CodeFn.call (g : CodeFn) : CompressFunc σ := fun a w =>
  let r := g a.input a.outsize a.param1 a.param2
  ⟨r.1, (r.2.shift a.outpos).onto a.outbuf, w⟩

/-! ## A codec for runs of one byte

The smallest codec that compresses anything; it stands for a real one where a result
is shown on concrete data. -/

/-- One byte for a chunk of equal bytes; anything else is a failure. -/
def runCompress : CodeFn := fun input outsize _ _ =>
  match input with
  | [] => (0, fun _ => none)
  | b :: rest =>
    if rest.all (· == b) ∧ 1 ≤ outsize then (1, Patch.ofList [b]) else (0, fun _ => none)

/-- The byte, as often as the chunk is long. -/
def runDecompress : CodeFn := fun input outsize _ _ =>
  match input with
  | [b] => (outsize, Patch.ofList (List.replicate outsize b))
  | _ => (0, fun _ => none)

theorem runCompress_le (input : List UInt8) (outsize p1 p2 : ℕ) :
    (runCompress input outsize p1 p2).1 ≤ min 1 outsize := by
  cases input with
  | nil => simp [runCompress]
  | cons b rest =>
    by_cases h : rest.all (· == b) ∧ 1 ≤ outsize
    · simp only [runCompress, if_pos h]
      omega
    · simp only [runCompress, if_neg h]
      omega

theorem runCompress_within (input : List UInt8) (outsize p1 p2 : ℕ) :
    (runCompress input outsize p1 p2).2.Within outsize := by
  intro p hp
  cases input with
  | nil => rfl
  | cons b rest =>
    by_cases h : rest.all (· == b) ∧ 1 ≤ outsize
    · simp only [runCompress, if_pos h, Patch.ofList, List.getElem?_eq_none_iff,
        List.length_singleton]
      omega
    · simp only [runCompress, if_neg h]

/-- The two directions as a codec function. -/
def runCodec : CodecFn where
  compress := runCompress
  decompress := runDecompress
  compress_lt := by
    intro input outsize p1 p2
    have hle := runCompress_le input outsize p1 p2
    omega
  compress_covers := by
    intro input outsize _ _ p hp
    cases input with
    | nil => simp [runCompress] at hp
    | cons b rest =>
      by_cases h : rest.all (· == b) ∧ 1 ≤ outsize
      · simp only [runCompress, if_pos h] at hp ⊢
        obtain rfl : p = 0 := by simpa using hp
        rfl
      · simp only [runCompress, if_neg h] at hp
        omega
  decompress_ge := by
    intro input outsize _ _
    simp only [runDecompress]
    split <;> omega

end Lzbench
