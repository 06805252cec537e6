import Lzbench.Outcome
import Lzbench.Timing

/-!
# A compression that does not fit

`lzbench_compress` returns 0 when a chunk stored raw does not fit the room left.
`lzbench_test` never looks at that number.  The chunks not reached keep the size zero,
and whether the row reports an error is left to the decompression, which hands an
empty code to the decoder for every one of them.

So an abort is reported exactly when there is a decompression and it does not happen
to give the input back.  A decoder that rejects the empty code is enough for that.

## Main definitions

* `RejectsEmpty` — the decoder fails on the empty code.
* `abort_reported_iff` — when an aborted compression is reported.
* `abort_unreported` — runs in which it is not.
-/

namespace Lzbench

open Imperative

variable {σ : Type}

/-- The decoder fails on the empty code. -/
def RejectsEmpty (F : CodecFn) (p1 p2 : ℕ) : Prop :=
  ∀ size, (F.decompress [] size p1 p2).1 ≤ 0

/-- The last compression was aborted, and the row says so. -/
def AbortReported (rep : Report σ) : Prop :=
  rep.compression.aborted = true → rep.decompression.decompError = true

/-! ## The codes of an aborted compression -/

/-- An abort leaves a chunk without a code. -/
theorem encode_length_lt {F : CodecFn} {p1 p2 room : ℕ} {chunks : List (List UInt8)}
    (h : (encode F p1 p2 room chunks).aborted = true) :
    (encode F p1 p2 room chunks).codes.length < chunks.length := by
  induction chunks generalizing room with
  | nil => simp [encode] at h
  | cons chunk rest ih =>
    simp only [encode] at h ⊢
    cases hcode : storedCode F p1 p2 room chunk with
    | none => simp
    | some code =>
      simp only [hcode, Encoded.after] at h ⊢
      have hlt := ih h
      simp only [List.length_append, List.length_cons, List.length_nil]
      omega

/-- A decoder that rejects the empty code stops at the first chunk without a code, if
not before. -/
theorem decode_nonpos {F : CodecFn} {p1 p2 : ℕ} (hrejects : RejectsEmpty F p1 p2)
    {entries : List (List UInt8 × ℕ)} {size : ℕ} (hmem : ([], size) ∈ entries) (hsize : 0 < size)
    (pos sum : ℕ) :
    -2 ^ 63 ≤ (decode F p1 p2 pos sum entries).1 ∧ (decode F p1 p2 pos sum entries).1 ≤ 0 := by
  induction entries generalizing pos sum with
  | nil => simp at hmem
  | cons x rest ih =>
    obtain ⟨code, chunk⟩ := x
    let r := if code.length = chunk then (toInt64 chunk, Patch.ofList code)
      else F.decompress code chunk p1 p2
    have hlow : -2 ^ 63 ≤ r.1 := by
      by_cases hraw : code.length = chunk
      · simp only [r, if_pos hraw]
        exact toInt64_ge _
      · simp only [r, if_neg hraw]
        exact F.decompress_ge _ _ _ _
    change -2 ^ 63 ≤ (if r.1 ≤ 0 then _ else _ : ℤ × Patch).1 ∧
      (if r.1 ≤ 0 then _ else _ : ℤ × Patch).1 ≤ 0
    by_cases hstop : r.1 ≤ 0
    · simp only [if_pos hstop]
      exact ⟨hlow, hstop⟩
    · simp only [if_neg hstop]
      refine ih ((List.mem_cons.mp hmem).resolve_left fun heq => hstop ?_) _ _
      obtain ⟨rfl, rfl⟩ := Prod.mk.inj heq
      have hcoded : ([] : List UInt8).length ≠ size := by simpa using hsize.ne
      simp only [r, if_neg hcoded]
      exact hrejects size

section Rows

variable {F : CodecFn} {params : LzbenchParams} {fileSizes : List ℕ} {desc : CompressorDesc σ}
  {inbuf : Mem} {insize : ℕ} {comprsize : UInt64} {param1 param2 : ℕ} {chunkSizes : List ℕ}

/-- An abort leaves an entry with the empty code among those decompressed. -/
theorem exists_empty_code
    (h : (storeOf F param1 param2 inbuf comprsize chunkSizes).aborted = true) :
    ∃ size ∈ chunkSizes, ([], size) ∈
      ((codesOf F param1 param2 inbuf comprsize chunkSizes).zip chunkSizes).take
        (chunkCount (codesOf F param1 param2 inbuf comprsize chunkSizes).length).toNat := by
  let e := storeOf F param1 param2 inbuf comprsize chunkSizes
  have hcounted := length_countedChunks chunkSizes
  have hlt : e.codes.length < (countedChunks chunkSizes).length :=
    (encode_length_lt h).trans_eq (length_chunkData inbuf 0 _)
  have hcodes : (codesOf F param1 param2 inbuf comprsize chunkSizes).length =
      (countedChunks chunkSizes).length := by
    rw [codesOf, Encoded.padded, List.length_append, List.length_replicate]
    exact Nat.add_sub_of_le hlt.le
  have hcount : (chunkCount (codesOf F param1 param2 inbuf comprsize chunkSizes).length).toNat =
      (countedChunks chunkSizes).length := by
    have hrange := chunkCount_lt chunkSizes.length
    rw [hcodes, chunkCount_of_lt (by omega), Int.toNat_natCast]
  have hle := chunkCount_le chunkSizes.length
  have hchunk : e.codes.length < chunkSizes.length := by omega
  refine ⟨chunkSizes[e.codes.length], List.getElem_mem hchunk, ?_⟩
  rw [hcount]
  refine List.mem_take_iff_getElem.mpr ⟨e.codes.length, ?_, ?_⟩
  · rw [List.length_zip, hcodes]
    omega
  · rw [List.getElem_zip]
    refine Prod.ext ?_ rfl
    exact (List.getElem_append_right le_rfl).trans (List.getElem_replicate _)

/-- A decoder that rejects the empty code does not give back an input whose compression
was aborted. -/
theorem not_reproduces_of_rejectsEmpty (hrejects : RejectsEmpty F param1 param2)
    (hpos : ∀ size ∈ chunkSizes, 0 < size) (hinsize : 0 < insize) (hmax : insize ≤ ptrdiffMax)
    (h : (storeOf F param1 param2 inbuf comprsize chunkSizes).aborted = true) :
    ¬ Reproduces inbuf insize (decodedOf F param1 param2 inbuf comprsize chunkSizes) := by
  obtain ⟨size, hchunk, hmem⟩ := exists_empty_code h
  obtain ⟨hlow, hnonpos⟩ := decode_nonpos hrejects hmem (hpos size hchunk) 0 0
  rintro ⟨hlength, -⟩
  change toSize (decode F param1 param2 0 0 _).1 = insize at hlength
  cases hnonpos.lt_or_eq with
  | inl hneg =>
    have hbig := lt_toSize_of_neg hlow hneg
    omega
  | inr hzero =>
    rw [hzero] at hlength
    exact hinsize.ne hlength

/-- The row of an aborted compression reports an error exactly when the decompression
is not skipped and what was stored does not decode to the input; it does not if the
decoder rejects the empty code. -/
theorem abort_reported_iff (hF : Implements F desc) {env : Env σ} {level : ℤ} {fuel : ℕ}
    {compbuf decomp : Mem} {w : σ} (hzero : decomp.Zeroed insize) (hinsize : 0 < insize)
    (hmax : insize ≤ ptrdiffMax)
    (hchunks : splitFiles (effectiveChunkSize params.chunkSize insize desc.maxBlockSize)
      fileSizes = some chunkSizes)
    {res : TestResult σ} {rep : Report σ}
    (hrun : lzbenchTest env params fileSizes desc level inbuf insize comprsize param1 fuel compbuf
      decomp w = .ok res) (hrep : res.report = some rep) :
    (AbortReported rep ↔
      ((storeOf F param1 (toSize desc.additionalParam) inbuf comprsize chunkSizes).aborted = true →
        params.compressOnly = false ∧ ¬ Reproduces inbuf insize
          (decodedOf F param1 (toSize desc.additionalParam) inbuf comprsize chunkSizes))) ∧
      (params.compressOnly = false → RejectsEmpty F param1 (toSize desc.additionalParam) →
        AbortReported rep) := by
  obtain ⟨compress, decompress, chunks, workmem, buf, w', hc, hd, hchunks', hrec⟩ :=
    lzbenchTest_recorded hrun hrep
  obtain rfl : chunks = chunkSizes := Option.some.inj (hchunks'.symm.trans hchunks)
  obtain ⟨haborted, -, herror⟩ := hrec.outcome hF hc hd hzero
  have hiff : AbortReported rep ↔
      ((storeOf F param1 (toSize desc.additionalParam) inbuf comprsize chunks).aborted = true →
        params.compressOnly = false ∧ ¬ Reproduces inbuf insize
          (decodedOf F param1 (toSize desc.additionalParam) inbuf comprsize chunks)) := by
    rw [AbortReported, haborted, herror]
    simp
  refine ⟨hiff, fun hfull hrejects => hiff.mpr fun h => ⟨hfull, ?_⟩⟩
  exact not_reproduces_of_rejectsEmpty hrejects
    (fun size hsize => ((splitFiles_some hchunks).2 size hsize).1) hinsize hmax h

end Rows

/-! ## An abort that is reported, and one that is not -/

theorem implements_warming : Implements runCodec warmingDesc where
  compress c hc := by
    cases hc
    exact fun _ _ => ⟨rfl, rfl⟩
  decompress c hd := by
    cases hd
    exact fun _ _ => ⟨rfl, rfl⟩

/-- Two different bytes and room for one: the decoder of runs rejects the empty code, and
the row has the error. -/
theorem abort_reported_warming :
    ∃ res rep, lzbenchTest shownEnv defaultParams [2] warmingDesc 0 (Mem.ofList [7, 8]) 2 1 0 2
        (Mem.ofList []) (Mem.ofList []) 0 = .ok res ∧ res.report = some rep ∧
      rep.compression.aborted = true ∧ AbortReported rep := by
  have hrun : ∃ res rep, lzbenchTest shownEnv defaultParams [2] warmingDesc 0 (Mem.ofList [7, 8]) 2
      1 0 2 (Mem.ofList []) (Mem.ofList []) 0 = .ok res ∧ res.report = some rep ∧
      rep.compression.aborted = true :=
    ⟨_, _, rfl, rfl, rfl⟩
  obtain ⟨res, rep, hrun, hrep, haborted⟩ := hrun
  have hzero : Mem.Zeroed (Mem.ofList []) 2 := fun _ _ => rfl
  have hmax : 2 ≤ ptrdiffMax := by decide
  refine ⟨res, rep, hrun, hrep, haborted, ?_⟩
  exact (abort_reported_iff implements_warming hzero (by decide) hmax rfl hrun hrep).2 rfl
    fun _ => le_rfl

/-- Codes as long as there is room, and a decoder that takes any code for zeros. -/
def fillCodec : CodecFn where
  compress := fun _ outsize _ _ =>
    (toInt64 outsize, fun p => if p < outsize then some 0 else none)
  decompress := fun _ outsize _ _ =>
    (toInt64 outsize, fun p => if p < outsize then some 0 else none)
  compress_lt := fun _ outsize _ _ => toInt64_lt outsize
  compress_covers := by
    intro _ outsize _ _ p hp
    have hin : p < outsize := hp.trans_le (toNat_toInt64_le outsize)
    simp [hin]
  decompress_ge := fun _ outsize _ _ => toInt64_ge outsize

/-- The codec with a clock: every call takes two seconds. -/
def fillDesc : CompressorDesc ℕ where
  name := "fill"
  version := ""
  firstLevel := 0
  lastLevel := 0
  additionalParam := 0
  maxBlockSize := 0
  compress := some fun a w => { fillCodec.compress.call a w with world := w + 2000000000 }
  decompress := some fun a w => { fillCodec.decompress.call a w with world := w + 2000000000 }
  init := none
  deinit := none

theorem implements_fill : Implements fillCodec fillDesc where
  compress c hc := by
    cases hc
    exact fun _ _ => ⟨rfl, rfl⟩
  decompress c hd := by
    cases hd
    exact fun _ _ => ⟨rfl, rfl⟩

/-- The parameters with `compress_only` as given. -/
def fillParams (compressOnly : Bool) : LzbenchParams :=
  { defaultParams with compressOnly := compressOnly }

/-- Three files of one zero byte: two codes take all the room, the third chunk is not
stored, and the row has no error, whether there is a decompression or not. -/
theorem abort_unreported :
    Implements fillCodec fillDesc ∧
      (∃ res rep, lzbenchTest shownEnv (fillParams false) [1, 1, 1] fillDesc 0
          (Mem.ofList [0, 0, 0]) 3 16387 0 2 (Mem.ofList []) (Mem.ofList []) 0 = .ok res ∧
          res.report = some rep ∧ rep.compression.aborted = true ∧
          rep.decompression.decompError = false) ∧
      ∃ res rep, lzbenchTest shownEnv (fillParams true) [1, 1, 1] fillDesc 0
        (Mem.ofList [0, 0, 0]) 3 16387 0 2 (Mem.ofList []) (Mem.ofList []) 0 = .ok res ∧
        res.report = some rep ∧ rep.compression.aborted = true ∧
        rep.decompression.decompError = false :=
  ⟨implements_fill, ⟨_, _, rfl, rfl, rfl, rfl⟩, _, _, rfl, rfl, rfl, rfl⟩

end Lzbench
