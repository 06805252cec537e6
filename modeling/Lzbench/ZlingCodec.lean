import Lzbench.CompDesc
import Lzbench.Verdict
import Lzbench.World
import Lzbench.ZlingDecode

/-!
# zling in the benchmark

The two wrappers together.  A stream that does not fit goes on being written for ever, and one of
which just the last byte does not fit is returned without it; but of everything that is returned
the decompressor makes the input again.  With the room that the benchmark gives, everything is
returned, so no row of zling is one of a failure.

## Main definitions

* `zlingCompress` — `lzbench_zling_compress`, with the blocks of `Encode`.
* `zling_reports_iff` — when losses are reported, by the outputter and by the wrapper.
* `zling_returns_iff` — how much room it takes that the compressor returns.
* `zling_roundTrip` — what is returned is decompressed.
* `RunsZlingCompress`, `RunsZlingDecompress` — a codec that does what the wrappers do where they
  return.
* `lzbenchTest_zling` — the rows of the benchmark.
-/

namespace Lzbench

open Imperative MemOutputter

variable {σ : Type}

/-- `lzbench_zling_compress`, with what the new buffer of `Encode` holds. -/
def zlingCompress (pq : PriorityQueue (HuffmanTree ℕ) HuffmanTree.weight) (ibuf : Mem) (fuel : ℕ)
    (a : CodecArgs) : Except Stop (ℤ × Mem) :=
  match zlingBlocks pq (toInt32 a.param1) ibuf (.init a.inbuf a.inpos a.insize) with
  | none => .error .hang
  | some inputs => lzbenchZlingCompress (fun _ _ => inputs) fuel a

/-! ## Writes inside of the buffer -/

/-- `o'` has the buffer of `o`, and nothing outside of it is written. -/
structure SameBuffer (o o' : MemOutputter) : Prop where
  mBuffer_eq : o'.mBuffer = o.mBuffer
  mBuflen_eq : o'.mBuflen = o.mBuflen
  within : Mem.WritesWithin o.mem o'.mem o.mBuffer o.mBuflen

theorem SameBuffer.refl (o : MemOutputter) : SameBuffer o o :=
  ⟨rfl, rfl, Mem.writesWithin_refl _ _ _⟩

theorem SameBuffer.trans {o o' o'' : MemOutputter} (h : SameBuffer o o') (h' : SameBuffer o' o'') :
    SameBuffer o o'' := by
  refine ⟨h'.mBuffer_eq.trans h.mBuffer_eq, h'.mBuflen_eq.trans h.mBuflen_eq, h.within.trans ?_⟩
  have hwithin := h'.within
  rwa [h.mBuffer_eq, h.mBuflen_eq] at hwithin

theorem sameBuffer_putData (o : MemOutputter) (buf : List UInt8) :
    SameBuffer o (o.putData buf).2 := ⟨rfl, rfl, o.within_putData buf⟩

theorem sameBuffer_putUInt32 (o : MemOutputter) (v : ℕ) : SameBuffer o (o.putUInt32 v) :=
  (((sameBuffer_putData o _).trans (sameBuffer_putData _ _)).trans
    (sameBuffer_putData _ _)).trans (sameBuffer_putData _ _)

/-- A call of the outputter returns, or it goes on for ever. -/
theorem ends_run (fuel : ℕ) (o : MemOutputter) (p : ZlingPut) :
    Ends (SameBuffer o) (fun e => e = .hang) (p.run fuel o) := by
  cases p with
  | char v =>
    rw [run_char, ends_ok]
    exact sameBuffer_putData o _
  | uint32 v =>
    rw [run_uint32, ends_ok]
    exact sameBuffer_putUInt32 o v
  | block buf =>
    by_cases hfit : buf.length ≤ o.room
    · cases run_block_of_le hfit fuel with
      | inl hhang => rw [hhang, ends_error]
      | inr hrun =>
        rw [hrun, ends_ok]
        split
        · exact SameBuffer.refl o
        · exact sameBuffer_putData o buf
    · have hne : buf ≠ [] := by
        rintro rfl
        exact hfit (Nat.zero_le _)
      rw [run_block_hang hne (Or.inr (by omega)), ends_error]

/-- The compressor writes nothing outside of its buffer. -/
theorem lzbenchZlingCompress_within {coder : List UInt8 → ℕ → List (List ZlingBlock)} {fuel : ℕ}
    {a : CodecArgs} {ret : ℤ} {out : Mem}
    (h : lzbenchZlingCompress coder fuel a = .ok (ret, out)) :
    Mem.WritesWithin a.outbuf out a.outpos a.outsize := by
  have hends : Ends (SameBuffer (init a.outbuf a.outpos a.outsize)) (fun e => e = .hang)
      ((encodePuts (coder a.input a.param1)).foldlM (ZlingPut.run fuel)
        (init a.outbuf a.outpos a.outsize)) := by
    refine ends_foldlM (fun _ => SameBuffer (init a.outbuf a.outpos a.outsize)) _
      (SameBuffer.refl _) fun done p rest o _ ho => ?_
    exact (ends_run fuel o p).mono (fun _ => ho.trans) fun _ he => he
  cases hrun : (encodePuts (coder a.input a.param1)).foldlM (ZlingPut.run fuel)
      (init a.outbuf a.outpos a.outsize) with
  | error e =>
    obtain rfl := hends.error e hrun
    simp only [lzbenchZlingCompress, hrun, reduceCtorEq] at h
  | ok o =>
    simp only [lzbenchZlingCompress, hrun, Except.ok.injEq, Prod.mk.injEq] at h
    rw [← h.2]
    exact (hends.ok o hrun).within

/-! ## What is returned -/

section Calls

variable {pq : PriorityQueue (HuffmanTree ℕ) HuffmanTree.weight} {ibuf : Mem} {fuel : ℕ}
  {a : CodecArgs}

theorem MakesStream.blocks_ne_nil {input : List UInt8} {e : ZlingRolzEncoder}
    {inputs : List (List ZlingBlock)} (h : MakesStream input e inputs) :
    ∀ blocks ∈ inputs, blocks ≠ [] := by
  induction h with
  | nil e => exact fun _ h => absurd h List.not_mem_nil
  | @cons text ilen e e' blocks input inputs hpos _ _ hblocks _ ih =>
    intro blocks' hmem
    cases List.mem_cons.mp hmem with
    | inl heq =>
      rintro rfl
      cases heq
      cases hblocks
      exact absurd hpos (lt_irrefl 0)
    | inr hmem => exact ih blocks' hmem

variable (pq ibuf) in
theorem zlingCompress_eq (hlevel : rolzLevel (toInt32 a.param1) ≠ none) :
    ∃ inputs, MakesStream a.input .init inputs ∧
      ∀ fuel, zlingCompress pq ibuf fuel a = lzbenchZlingCompress (fun _ _ => inputs) fuel a := by
  obtain ⟨inputs, hrun, hmakes⟩ := zlingBlocks_spec pq hlevel ibuf (.init a.inbuf a.inpos a.insize)
  refine ⟨inputs, hmakes, fun fuel => ?_⟩
  simp only [zlingCompress, hrun]

/-- What the compressor returns is a stream for its input, with the last flag or without. -/
theorem zlingCompress_ok {ret : ℤ} {out : Mem} (hlevel : rolzLevel (toInt32 a.param1) ≠ none)
    (hout : a.outsize ≤ ptrdiffMax) (h : zlingCompress pq ibuf fuel a = .ok (ret, out)) :
    ∃ inputs, MakesStream a.input .init inputs ∧ ret ≤ a.outsize ∧
      (out.bytes a.outpos ret.toNat = zlingStream inputs ∨
        out.bytes a.outpos ret.toNat = (zlingStream inputs).dropLast) := by
  obtain ⟨inputs, hmakes, heq⟩ := zlingCompress_eq pq ibuf hlevel
  rw [heq] at h
  refine ⟨inputs, hmakes, ?_⟩
  by_cases hne : inputs = []
  · subst hne
    have hzero : lzbenchZlingCompress (fun _ _ => []) fuel a = .ok (0, a.outbuf) := rfl
    rw [hzero] at h
    cases h
    exact ⟨Int.natCast_nonneg _, Or.inl rfl⟩
  by_cases hstuck : fuel = 0 ∨ a.outsize + 1 < (zlingStream inputs).length
  · rw [lzbenchZlingCompress_hang hne hmakes.blocks_ne_nil hstuck] at h
    cases h
  obtain ⟨n, rfl⟩ := Nat.exists_eq_succ_of_ne_zero fun hzero => hstuck (Or.inl hzero)
  by_cases hfit : (zlingStream inputs).length ≤ a.outsize
  · obtain ⟨out', hret, hbytes⟩ :=
      @lzbenchZlingCompress_of_le (fun _ _ => inputs) a hfit n
    rw [hret, toInt64_ofNat (hfit.trans hout)] at h
    cases h
    exact ⟨Int.ofNat_le.mpr hfit, Or.inl hbytes⟩
  · have hlong : (zlingStream inputs).length = a.outsize + 1 := by omega
    obtain ⟨out', hret, hbytes⟩ := @lzbenchZlingCompress_of_eq (fun _ _ => inputs) a hne
      hmakes.blocks_ne_nil hlong n
    rw [hret, toInt64_ofNat hout] at h
    cases h
    refine ⟨le_rfl, Or.inr ?_⟩
    rw [Int.toNat_natCast, hbytes, List.dropLast_eq_take, hlong]
    rfl

variable (pq ibuf) in
/-- With room for a sixth more and some tables the compressor returns the whole stream. -/
theorem zlingCompress_of_room (hlevel : rolzLevel (toInt32 a.param1) ≠ none)
    (hout : a.outsize ≤ ptrdiffMax) (hroom : zlingGrow a.insize ≤ a.outsize) :
    ∃ inputs, MakesStream a.input .init inputs ∧
      (zlingStream inputs).length ≤ zlingGrow a.insize ∧
      ∀ fuel, ∃ out, zlingCompress pq ibuf (fuel + 1) a = .ok ((zlingStream inputs).length, out) ∧
        out.bytes a.outpos (zlingStream inputs).length = zlingStream inputs ∧
        Mem.WritesWithin a.outbuf out a.outpos a.outsize := by
  obtain ⟨inputs, hmakes, heq⟩ := zlingCompress_eq pq ibuf hlevel
  have hsize := hmakes.length_le_grow
  rw [CodecArgs.input, Mem.length_bytes] at hsize
  refine ⟨inputs, hmakes, hsize, fun fuel => ?_⟩
  obtain ⟨out, hret, hbytes⟩ :=
    @lzbenchZlingCompress_of_le (fun _ _ => inputs) a (hsize.trans hroom) fuel
  refine ⟨out, ?_, hbytes, lzbenchZlingCompress_within hret⟩
  rw [heq, hret, toInt64_ofNat ((hsize.trans hroom).trans hout)]

variable (pq ibuf) in
/-- The compressor returns exactly if all of its stream but the last flag fits, which takes at most
a sixth more than the input; else it hangs.  What is behind the output has no say in it. -/
theorem zling_returns_iff (hlevel : rolzLevel (toInt32 a.param1) ≠ none) :
    ∃ inputs, zlingBlocks pq (toInt32 a.param1) ibuf (.init a.inbuf a.inpos a.insize) =
        some inputs ∧ (zlingStream inputs).length ≤ zlingGrow a.insize ∧
      ∀ fuel, ((zlingStream inputs).length ≤ a.outsize + 1 ↔
          ∃ r, zlingCompress pq ibuf (fuel + 1) a = .ok r) ∧
        (a.outsize + 1 < (zlingStream inputs).length ↔
          zlingCompress pq ibuf (fuel + 1) a = .error .hang) := by
  obtain ⟨inputs, hrun, hmakes⟩ := zlingBlocks_spec pq hlevel ibuf (.init a.inbuf a.inpos a.insize)
  have hsize := hmakes.length_le_grow
  rw [MemInputter.length_rest] at hsize
  refine ⟨inputs, hrun, hsize, fun fuel => ?_⟩
  have heq : zlingCompress pq ibuf (fuel + 1) a =
      lzbenchZlingCompress (fun _ _ => inputs) (fuel + 1) a := by simp only [zlingCompress, hrun]
  rw [heq]
  by_cases hlong : a.outsize + 1 < (zlingStream inputs).length
  · have hne : inputs ≠ [] := by
      rintro rfl
      exact absurd hlong (Nat.not_lt_zero _)
    have hhang := @lzbenchZlingCompress_hang (fun _ _ => inputs) a hne hmakes.blocks_ne_nil
      (fuel + 1) (Or.inr hlong)
    simp [hhang, hlong]
  · have hreturns : ∃ r, lzbenchZlingCompress (fun _ _ => inputs) (fuel + 1) a = .ok r := by
      by_cases hfit : (zlingStream inputs).length ≤ a.outsize
      · obtain ⟨out, hret, -⟩ := @lzbenchZlingCompress_of_le (fun _ _ => inputs) a hfit fuel
        exact ⟨_, hret⟩
      · have hne : inputs ≠ [] := by
          rintro rfl
          exact hfit (Nat.zero_le _)
        obtain ⟨out, hret, -⟩ := @lzbenchZlingCompress_of_eq (fun _ _ => inputs) a hne
          hmakes.blocks_ne_nil (by omega) fuel
        exact ⟨_, hret⟩
    obtain ⟨r, hr⟩ := hreturns
    simp only [hr, hlong, reduceCtorEq, Except.ok.injEq, exists_eq', iff_true, and_true]
    omega

/-- A byte and room for none: the stream of its block is longer than the one byte that may be
lost. -/
theorem zling_returns_iff_none :
    ∃ inputs, zlingBlocks (.sorted _) 0 (fun _ => 0) (.init (fun _ => 7) 0 1) = some inputs ∧
      (zlingStream inputs).length ≤ 290 ∧
      ∀ fuel, ((zlingStream inputs).length ≤ 1 ↔
          ∃ r, zlingCompress (.sorted _) (fun _ => 0) (fuel + 1)
            ⟨fun _ => 7, 0, 1, fun _ => 0, 0, 0, 0, 0, 0⟩ = .ok r) ∧
        (1 < (zlingStream inputs).length ↔
          zlingCompress (.sorted _) (fun _ => 0) (fuel + 1)
            ⟨fun _ => 7, 0, 1, fun _ => 0, 0, 0, 0, 0, 0⟩ = .error .hang) :=
  zling_returns_iff (.sorted _) (fun _ => 0)
    (a := ⟨fun _ => 7, 0, 1, fun _ => 0, 0, 0, 0, 0, 0⟩) (by decide)

/-- Whatever the compressor returns, with all of its stream or without the last flag, the
decompressor makes the input of it, wherever the bytes are copied to. -/
theorem zling_roundTrip {ret : ℤ} {out : Mem} (hlevel : rolzLevel (toInt32 a.param1) ≠ none)
    (hin : a.insize ≤ ptrdiffMax) (hout : a.outsize ≤ ptrdiffMax)
    (h : zlingCompress pq ibuf fuel a = .ok (ret, out)) (ibuf' obuf : Mem) (tbuf : ℕ → ℕ)
    {a' : CodecArgs} (hcode : a'.input = out.bytes a.outpos ret.toNat)
    (hroom : a.insize ≤ a'.outsize) (fuel' : ℕ) :
    ∃ out', lzbenchZlingDecompress (fuel' + 1) ibuf' obuf tbuf a' = .ok (a.insize, out') ∧
      Mem.SameBytes out' a'.outpos a.inbuf a.inpos a.insize ∧
      Mem.WritesWithin a'.outbuf out' a'.outpos a'.outsize := by
  obtain ⟨inputs, hmakes, -, hbytes⟩ := zlingCompress_ok hlevel hout h
  have hlen : a.input.length = a.insize := Mem.length_bytes _ _ _
  rw [← hcode] at hbytes
  obtain ⟨out', hrun, hsame, hwithin⟩ :=
    lzbenchZlingDecompress_spec hmakes ibuf' obuf tbuf hbytes (by rwa [hlen]) fuel'
  rw [hlen, toInt64_ofNat hin] at hrun
  rw [hlen] at hsame
  exact ⟨out', hrun, Mem.bytes_eq_bytes_iff.mp hsame, hwithin⟩

/-- Three bytes, and room for them. -/
theorem zling_roundTrip_three :
    ∃ ret out, zlingCompress (.sorted _) (fun _ => 0) 1
        ⟨Mem.ofList [7, 8, 9], 0, 3, fun _ => 0, 0, 300, 4, 0, 0⟩ = .ok (ret, out) ∧
      ∃ out', lzbenchZlingDecompress 1 (fun _ => 0) (fun _ => 0) (fun _ => 0)
          ⟨out, 0, ret.toNat, fun _ => 0, 0, 3, 4, 0, 0⟩ = .ok (3, out') ∧
        Mem.SameBytes out' 0 (Mem.ofList [7, 8, 9]) 0 3 := by
  have hlevel : rolzLevel (toInt32 (4 : ℕ)) ≠ none := by decide
  obtain ⟨inputs, -, -, hall⟩ := zlingCompress_of_room (.sorted _) (fun _ => 0)
    (a := ⟨Mem.ofList [7, 8, 9], 0, 3, fun _ => 0, 0, 300, 4, 0, 0⟩) hlevel (by decide) (by decide)
  obtain ⟨out, hret, -, -⟩ := hall 0
  have hcode : (⟨out, 0, (zlingStream inputs).length, fun _ => 0, 0, 3, 4, 0, 0⟩ :
      CodecArgs).input = out.bytes 0 (zlingStream inputs).length := rfl
  obtain ⟨out', hrun, hsame, -⟩ := zling_roundTrip hlevel (by decide) (by decide) hret
    (fun _ => 0) (fun _ => 0) (fun _ => 0) hcode le_rfl 0
  exact ⟨_, out, hret, out', hrun, hsame⟩

end Calls

/-! ## The two reports -/

/-- The outputter does what is asked of it exactly for the writes that fit, and the wrapper
returns whole streams unless just the last byte of one does not fit. -/
theorem zling_reports_iff (mem : Mem) (buffer buflen : ℕ) (bufs : List (List UInt8))
    (block : List UInt8) {coder : List UInt8 → ℕ → List (List ZlingBlock)} {a : CodecArgs}
    (hblocks : ∀ blocks ∈ coder a.input a.param1, blocks ≠ []) (hout : a.outsize ≤ ptrdiffMax) :
    (((init mem buffer buflen).putAll bufs).DrainReports block ↔
        (bufs.map List.length).sum + block.length ≤ buflen) ∧
      (CompressesWhole coder a ↔
        (zlingStream (coder a.input a.param1)).length ≠ a.outsize + 1) :=
  ⟨drainReports_putAll mem buffer buflen bufs block, compressesWhole_iff hblocks hout⟩

/-- The blocks of `Encode`, with a list for its queue and zeros in its new buffer. -/
def zlingCoder (input : List UInt8) (level : ℕ) : List (List ZlingBlock) :=
  (zlingBlocks (.sorted _) (toInt32 level) (fun _ => 0)
    (.init (Mem.ofList input) 0 input.length)).getD []

theorem makesStream_zlingCoder (input : List UInt8) {level : ℕ}
    (hlevel : rolzLevel (toInt32 level) ≠ none) :
    MakesStream input .init (zlingCoder input level) := by
  obtain ⟨inputs, hrun, hmakes⟩ := zlingBlocks_spec (.sorted _) hlevel (fun _ => 0)
    (.init (Mem.ofList input) 0 input.length)
  have hrest : (MemInputter.init (Mem.ofList input) 0 input.length).rest = input :=
    Mem.bytes_ofList input
  rw [hrest] at hmakes
  simpa only [zlingCoder, hrun, Option.getD_some] using hmakes

/-- A call for the byte `a`, with room for `outsize` bytes. -/
def zlingCall (outsize : ℕ) : CodecArgs := ⟨fun _ => 97, 0, 1, fun _ => 0, 0, outsize, 0, 0, 0⟩

/-- The stream of one byte. -/
def zlingOneByte : List UInt8 := zlingStream (zlingCoder [97] 0)

theorem makesStream_oneByte : MakesStream [97] .init (zlingCoder [97] 0) :=
  makesStream_zlingCoder [97] (by decide)

theorem length_zlingOneByte_le : zlingOneByte.length ≤ 290 := makesStream_oneByte.length_le_grow

theorem length_zlingOneByte_pos : 0 < zlingOneByte.length := by
  have hmakes := makesStream_oneByte
  refine Nat.zero_lt_of_lt (length_zlingStream_pos ?_ hmakes.blocks_ne_nil)
  intro hnil
  rw [hnil] at hmakes
  generalize hinput : ([97] : List UInt8) = input at hmakes
  cases hmakes
  cases hinput

/-- The wrapper does what is asked of it for one byte exactly if its room is not one short. -/
theorem compressesWhole_oneByte {outsize : ℕ} (hout : outsize ≤ ptrdiffMax) :
    CompressesWhole zlingCoder (zlingCall outsize) ↔ zlingOneByte.length ≠ outsize + 1 :=
  @compressesWhole_iff zlingCoder (zlingCall outsize) makesStream_oneByte.blocks_ne_nil hout

/-- With room for 300 bytes the stream is whole. -/
theorem zling_reports_oneByte :
    ((init (fun _ => 0) 0 4).putAll [[1]]).DrainReports [2, 3] ∧
      CompressesWhole zlingCoder (zlingCall 300) := by
  have h := @zling_reports_iff (fun _ => 0) 0 4 [[1]] [2, 3] zlingCoder (zlingCall 300)
    makesStream_oneByte.blocks_ne_nil (by decide)
  refine ⟨h.1.mpr (by decide), h.2.mpr ?_⟩
  exact (Nat.lt_of_le_of_lt length_zlingOneByte_le (by decide)).ne

/-- A block for which there is no room is never finished, and of the stream of one byte the last
byte is lost where there is room for all the others. -/
theorem zling_stalls :
    ¬ ((init (fun _ => 0) 0 1).DrainReports [1, 2]) ∧
      ¬ CompressesWhole zlingCoder (zlingCall (zlingOneByte.length - 1)) := by
  constructor
  · intro hreports
    have hfit := (drainReports_putAll (fun _ => 0) 0 1 [] [1, 2]).mp hreports
    exact absurd hfit (by decide)
  · obtain ⟨n, hn⟩ := Nat.exists_eq_succ_of_ne_zero length_zlingOneByte_pos.ne'
    have hsize := length_zlingOneByte_le
    have hobj : 290 ≤ ptrdiffMax := by decide
    rw [hn] at hsize ⊢
    intro hwhole
    exact (compressesWhole_oneByte (by omega)).mp hwhole hn

/-! ## The benchmark -/

/-- A codec that does what the compressor does, for some contents of its new buffer, wherever that
returns. -/
def RunsZlingCompress (pq : PriorityQueue (HuffmanTree ℕ) HuffmanTree.weight)
    (c : CompressFunc σ) : Prop :=
  ∀ a w, ∃ ibuf fuel, ∀ r, zlingCompress pq ibuf (fuel + 1) a = .ok r →
    (c a w).ret = r.1 ∧ (c a w).out = r.2

/-- A codec that does what the decompressor does, for some contents of its new buffers, wherever
that returns. -/
def RunsZlingDecompress (c : CompressFunc σ) : Prop :=
  ∀ a w, ∃ ibuf obuf tbuf fuel, ∀ r, lzbenchZlingDecompress (fuel + 1) ibuf obuf tbuf a = .ok r →
    (c a w).ret = r.1 ∧ (c a w).out = r.2

/-- Of the sizes for which a sixth more is a size as well. -/
def zlingMaxSize : ℕ := 2 ^ 62

/-- A call at a level, with the room that is needed. -/
def ZlingFits (a : CodecArgs) : Prop :=
  (rolzLevel (toInt32 a.param1)).isSome = true ∧ a.insize ≤ zlingMaxSize ∧
    zlingGrow a.insize ≤ a.outsize ∧ a.outsize ≤ ptrdiffMax

instance : DecidablePred ZlingFits := fun _ =>
  inferInstanceAs (Decidable (_ ∧ _ ∧ _ ∧ _))

section Bench

variable {pq : PriorityQueue (HuffmanTree ℕ) HuffmanTree.weight}
  {compress decompress : CompressFunc σ}

/-- What the codec does with a call. -/
theorem RunsZlingCompress.onCalls (hc : RunsZlingCompress pq compress) (a : CodecArgs) (w : σ) :
    let r := compress.onCalls ZlingFits a w
    Mem.WritesWithin a.outbuf r.out a.outpos a.outsize ∧
      (0 < r.ret → ZlingFits a ∧ ∃ inputs, MakesStream a.input .init inputs ∧
        r.ret = (zlingStream inputs).length ∧ (zlingStream inputs).length ≤ zlingGrow a.insize ∧
        r.out.bytes a.outpos (zlingStream inputs).length = zlingStream inputs) := by
  intro r
  by_cases hfits : ZlingFits a
  · have hr : r = compress a w := if_pos hfits
    have hcall := hfits
    obtain ⟨hlevel, -, hroom, hout⟩ := hcall
    obtain ⟨ibuf, fuel, hrun⟩ := hc a w
    obtain ⟨inputs, hmakes, hsize, hall⟩ := zlingCompress_of_room pq ibuf
      (Option.isSome_iff_ne_none.mp hlevel) hout hroom
    obtain ⟨out, hret, hbytes, hwithin⟩ := hall fuel
    obtain ⟨hreteq, houteq⟩ := hrun _ hret
    rw [← hr] at hreteq houteq
    rw [houteq]
    exact ⟨hwithin, fun _ => ⟨hfits, inputs, hmakes, hreteq, hsize, hbytes⟩⟩
  · have hr : r = ⟨0, a.outbuf, w⟩ := if_neg hfits
    rw [hr]
    exact ⟨Mem.writesWithin_refl _ _ _, fun h => absurd h (lt_irrefl 0)⟩

theorem codesWithin_zling (hc : RunsZlingCompress pq compress) :
    CodesWithin zlingGrow (compress.onCalls ZlingFits) := by
  intro a w hpos _
  obtain ⟨⟨-, -, hroom, -⟩, inputs, -, hret, hsize, -⟩ := (hc.onCalls a w).2 hpos
  rw [hret]
  exact ⟨Int.ofNat_le.mpr (hsize.trans hroom), Int.ofNat_le.mpr hsize⟩

/-- What is compressed is decompressed. -/
theorem roundTrips_zling (hc : RunsZlingCompress pq compress)
    (hd : RunsZlingDecompress decompress) :
    RoundTrips (compress.onCalls ZlingFits) decompress := by
  refine ⟨fun a w => (hc.onCalls a w).1, fun a w hpos hne => (codesWithin_zling hc a w hpos hne).1,
    fun a w hpos _ => ?_⟩
  obtain ⟨⟨-, hsize, -, -⟩, inputs, hmakes, hret, -, hbytes⟩ := (hc.onCalls a w).2 hpos
  have hlen : a.input.length = a.insize := Mem.length_bytes _ _ _
  have hobj : a.insize ≤ ptrdiffMax := hsize.trans (by decide)
  rw [hret, Int.toNat_natCast, hbytes]
  intro src srcpos dst dstpos w' hcode
  let a' : CodecArgs := ⟨src, srcpos, (zlingStream inputs).length, dst, dstpos, a.insize, a.param1,
    a.param2, a.workmem⟩
  obtain ⟨ibuf, obuf, tbuf, fuel, hrun⟩ := hd a' w'
  obtain ⟨out, hdecode, hsame, hwithin⟩ := lzbenchZlingDecompress_spec hmakes ibuf obuf tbuf
    (a := a') (Or.inl hcode) hlen.le fuel
  obtain ⟨hreteq, houteq⟩ := hrun _ hdecode
  rw [hlen, toInt64_ofNat hobj] at hreteq
  rw [hlen] at hsame
  refine ⟨hreteq, ?_, ?_⟩
  · rw [houteq]
    exact Mem.bytes_eq_bytes_iff.mp hsame
  · rw [houteq]
    exact hwithin

/-- The row `zling`, with its two functions. -/
theorem compDesc_zling {wrappers : Wrappers σ} {desc : CompressorDesc σ}
    (hdesc : desc ∈ compDesc wrappers) (hname : desc.name = "zling") :
    desc.compress = wrappers.code "lzbench_zling_compress" ∧
      desc.decompress = wrappers.code "lzbench_zling_decompress" := by
  refine compDesc_code hdesc ?_
  rw [hname]
  decide +kernel

/-- The streams of the chunks take at most a sixth more than the files and the tables of a block
for each chunk. -/
theorem sum_zlingGrow_le (chunkSizes : List ℕ) :
    (chunkSizes.map zlingGrow).sum ≤
      chunkSizes.sum + chunkSizes.sum / 6 + 289 * chunkSizes.length := by
  induction chunkSizes with
  | nil => simp
  | cons part rest ih =>
    simp only [List.map_cons, List.sum_cons, List.length_cons, zlingGrow] at ih ⊢
    omega

theorem zlingGrow_le_bound {n : ℕ} (hn : n ≤ zlingMaxSize) : zlingGrow n ≤ getCompressBound n := by
  have hobj : n ≤ ptrdiffMax := hn.trans (by decide)
  rw [getCompressBound_of_fits (boundFits_of_le_ptrdiffMax hobj)]
  simp only [zlingGrow, padSize]
  omega

/-- Every row of `zling` is that of a success, at every level that it has: all calls return, what
they return is decompressed again, and there is room for it unless the files are many and small. -/
theorem lzbenchTest_zling {env : Env σ} {params : LzbenchParams} {fileSizes : List ℕ}
    {wrappers : Wrappers σ} {desc : CompressorDesc σ} {level : ℤ} {inbuf : Mem} {insize : ℕ}
    {comprsize : UInt64} {param1 fuel : ℕ} {compbuf decomp : Mem} {w : σ}
    (hcompress : wrappers.code "lzbench_zling_compress" = some compress)
    (hc : RunsZlingCompress pq compress)
    (hdecompress : wrappers.code "lzbench_zling_decompress" = some decompress)
    (hd : RunsZlingDecompress decompress)
    (hdesc : desc ∈ compDesc wrappers) (hname : desc.name = "zling")
    (hlevel : (rolzLevel (toInt32 param1)).isSome = true)
    (hsum : fileSizes.sum = insize) (hsize : insize ≤ zlingMaxSize)
    (hfew : FewChunks params fileSizes desc insize)
    (hroom : ∀ chunkSizes, splitFiles (effectiveChunkSize params.chunkSize insize
      desc.maxBlockSize) fileSizes = some chunkSizes →
      insize + insize / 6 + 289 * chunkSizes.length ≤ comprsize.toNat) :
    Ends (fun res => ∀ rep, res.report = some rep → rep.compression.aborted = false ∧
        rep.decompression.decompError = false)
      (fun f => f.stop ≠ .exitFailure)
      (lzbenchTest env params fileSizes desc level inbuf insize comprsize param1 fuel compbuf
        decomp w) := by
  obtain ⟨hrowc, hrowd⟩ := compDesc_zling hdesc hname
  have hobj : insize ≤ ptrdiffMax := hsize.trans (by decide)
  have hgrow : ∀ n, n ≤ zlingGrow n := fun n => by
    simp only [zlingGrow]
    omega
  have hcodes : CodesWithin zlingGrow (compress.onCalls ZlingFits) := codesWithin_zling hc
  -- the calls that the benchmark makes are those with room
  have hcalls : ∀ workmem chunkSizes, splitFiles (effectiveChunkSize params.chunkSize insize
      desc.maxBlockSize) fileSizes = some chunkSizes → chunkSizes.sum = insize ∧
      (chunkSizes.map zlingGrow).sum ≤ comprsize.toNat ∧ ∀ comprSizes outbuf w,
      lzbenchCompress (compress.onCalls ZlingFits) inbuf param1 (toSize desc.additionalParam)
          workmem chunkSizes comprSizes outbuf comprsize w =
        lzbenchCompress compress inbuf param1 (toSize desc.additionalParam) workmem chunkSizes
          comprSizes outbuf comprsize w := by
    intro workmem chunkSizes hchunks
    have htotal : chunkSizes.sum = insize := (splitFiles_some hchunks).1.trans hsum
    have hpart : ∀ part ∈ chunkSizes, part ≤ zlingMaxSize := fun part hpart =>
      (List.le_sum_of_mem hpart).trans (htotal.trans_le hsize)
    have hfit : (chunkSizes.map zlingGrow).sum ≤ comprsize.toNat := by
      have hle := sum_zlingGrow_le chunkSizes
      have hcap := hroom _ hchunks
      omega
    refine ⟨htotal, hfit, lzbenchCompress_onCalls hcodes hgrow
      (fun part hmem => zlingGrow_le_bound (hpart part hmem)) (fun s part hmem hout => ?_)
      (hfew _ hchunks) hfit⟩
    have hbound : outpart s part ≤ getCompressBound part := min_le_left _ _
    have hmax := hpart part hmem
    rw [getCompressBound_of_fits (boundFits_of_le_ptrdiffMax (hmax.trans (by decide)))] at hbound
    refine ⟨hlevel, hmax, hout, ?_⟩
    simp only [compressArgs, ptrdiffMax, padSize, zlingMaxSize] at *
    omega
  refine ends_lzbenchTest_neverAborts ?back ?never hsum hobj
  case back =>
    intro compress' decompress' workmem chunkSizes hcompress' hdecompress' hchunks
    obtain rfl : compress = compress' :=
      Option.some.inj (hcompress.symm.trans (hrowc.symm.trans hcompress'))
    obtain rfl : decompress = decompress' :=
      Option.some.inj (hdecompress.symm.trans (hrowd.symm.trans hdecompress'))
    obtain ⟨htotal, -, hagree⟩ := hcalls workmem chunkSizes hchunks
    exact givesBack_of_agrees (roundTrips_zling hc hd) hagree
      (fun part hmem => ((splitFiles_some hchunks).2 part hmem).1) (htotal.trans_le hobj)
      (hfew _ hchunks)
  case never =>
    intro compress' workmem chunkSizes hcompress' hchunks comprSizes buf w' r hr
    obtain rfl : compress = compress' :=
      Option.some.inj (hcompress.symm.trans (hrowc.symm.trans hcompress'))
    obtain ⟨-, hfit, hagree⟩ := hcalls workmem chunkSizes hchunks
    rw [← hagree] at hr
    exact not_aborted_of_codesWithin hcodes hgrow (hfew _ hchunks) hfit hr

end Bench

/-- The compressor with a list for its queue, and zeros in its new buffer. -/
def zlingCompressCall : CompressFunc ℕ := fun a w =>
  match zlingCompress (.sorted _) (fun _ => 0) 1 a with
  | .ok r => ⟨r.1, r.2, w⟩
  | .error _ => ⟨0, a.outbuf, w⟩

/-- The decompressor with zeros in its new buffers. -/
def zlingDecompressCall : CompressFunc ℕ := fun a w =>
  match lzbenchZlingDecompress 1 (fun _ => 0) (fun _ => 0) (fun _ => 0) a with
  | .ok r => ⟨r.1, r.2, w⟩
  | .error _ => ⟨0, a.outbuf, w⟩

theorem runsZling_calls :
    RunsZlingCompress (.sorted _) zlingCompressCall ∧ RunsZlingDecompress zlingDecompressCall := by
  refine ⟨fun a w => ⟨fun _ => 0, 0, fun r hr => ?_⟩,
    fun a w => ⟨fun _ => 0, fun _ => 0, fun _ => 0, 0, fun r hr => ?_⟩⟩
  · rw [Nat.zero_add] at hr
    simp only [zlingCompressCall, hr, and_self]
  · rw [Nat.zero_add] at hr
    simp only [zlingDecompressCall, hr, and_self]

/-- The two calls take no time. -/
theorem codecKeeps_zling (w : ℕ) :
    CodecKeeps (· = w) zlingCompressCall ∧ CodecKeeps (· = w) zlingDecompressCall := by
  refine ⟨fun a w' hw => ?_, fun a w' hw => ?_⟩
  · simp only [zlingCompressCall]
    split <;> exact hw
  · simp only [zlingDecompressCall]
    split <;> exact hw

def zlingWrappers : Wrappers ℕ where
  code name :=
    if name = "lzbench_zling_compress" then some zlingCompressCall
    else if name = "lzbench_zling_decompress" then some zlingDecompressCall
    else none
  init _ := none
  deinit _ := none

/-- The row of the table. -/
def zlingDesc : CompressorDesc ℕ :=
  CompEntry.desc zlingWrappers ⟨"zling", "2018-10-12", 0, 4, 0, 0,
    "lzbench_zling_compress", "lzbench_zling_decompress", none, none⟩

/-- The row of two files of two bytes and of one, at the highest level. -/
theorem lzbenchTest_zling_two :
    ∃ res rep, lzbenchTest (tickingEnv 3000000000) defaultParams [2, 1] zlingDesc 4
        (Mem.ofList [7, 8, 9]) 3 20000 4 2 (Mem.ofList []) (Mem.ofList []) 0 = .ok res ∧
      res.report = some rep ∧ rep.compression.aborted = false ∧
      rep.decompression.decompError = false := by
  have hrow : zlingDesc ∈ compDesc zlingWrappers := List.mem_map.mpr ⟨_, by decide +kernel, rfl⟩
  have hsum : [2, 1].sum = 3 := rfl
  have hfew : FewChunks defaultParams [2, 1] zlingDesc 3 := by
    rintro chunkSizes ⟨⟩
    decide
  have hroom : ∀ chunkSizes, splitFiles (effectiveChunkSize defaultParams.chunkSize 3
      zlingDesc.maxBlockSize) [2, 1] = some chunkSizes →
      3 + 3 / 6 + 289 * chunkSizes.length ≤ (20000 : UInt64).toNat := by
    rintro chunkSizes ⟨⟩
    decide
  obtain ⟨res, rep, hrun, hrep⟩ := @lzbenchTest_ticking zlingDesc zlingCompressCall
    zlingDecompressCall [2, 1] [2, 1] 4 (Mem.ofList [7, 8, 9]) 3 20000 4 1 (Mem.ofList [])
    (Mem.ofList []) 3000000000 0 rfl rfl rfl (fun w => (codecKeeps_zling w).1)
    (fun w => (codecKeeps_zling w).2) rfl (by decide) (by decide) (by decide)
  exact ⟨res, rep, hrun, hrep, (lzbenchTest_zling rfl runsZling_calls.1 rfl runsZling_calls.2 hrow
    rfl (by decide) hsum (by decide) hfew hroom).ok res hrun rep hrep⟩

end Lzbench
