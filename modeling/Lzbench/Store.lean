import Lzbench.Decompress

/-!
# The store as a function of the input

For a codec that is a function of its input bytes, sizes and parameters, the two loops
compute functions: the stored codes from the chunks of the input, and what is written
from the codes.  Buffers, offsets and the state of the world do not occur in them.

The loops refine these functions: `lzbench_compress` leaves the codes one behind the
other whatever the buffer held, and `lzbench_decompress` writes what the codes say over
whatever its output held.

## Main definitions

* `storedCode`, `encode` — what is stored for one chunk, and for a list.
* `decode` — what a list of codes is turned into, as a result and a patch.
* `lzbenchCompress_encode`, `lzbenchDecompress_decode` — the loops compute them.
-/

namespace Lzbench

open Imperative

variable {σ : Type}

/-! ## The functions -/

/-- The chunks of the input, one behind the other. -/
def chunkData (inbuf : Mem) : ℕ → List ℕ → List (List UInt8)
  | _, [] => []
  | pos, size :: rest => inbuf.bytes pos size :: chunkData inbuf (pos + size) rest

@[simp] theorem length_chunkData (inbuf : Mem) (pos : ℕ) (sizes : List ℕ) :
    (chunkData inbuf pos sizes).length = sizes.length := by
  induction sizes generalizing pos with
  | nil => rfl
  | cons size rest ih => simp [chunkData, ih]

/-- What is stored for a chunk with `room` bytes left: the chunk itself, or its code;
nothing when the chunk does not fit. -/
def storedCode (F : CodecFn) (p1 p2 room : ℕ) (chunk : List UInt8) : Option (List UInt8) :=
  let r := F.compress chunk (min (getCompressBound chunk.length) room) p1 p2
  if r.1 ≤ 0 ∨ r.1 = chunk.length then
    if room < chunk.length then none else some chunk
  else some (r.2.bytes r.1.toNat)

/-- The codes of a list of chunks, and whether a chunk did not fit. -/
structure Encoded where
  codes : List (List UInt8)
  aborted : Bool
  deriving DecidableEq

/-- Codes that were stored before. -/
def Encoded.after (codes : List (List UInt8)) (e : Encoded) : Encoded :=
  ⟨codes ++ e.codes, e.aborted⟩

/-- What is stored for a list of chunks. -/
def encode (F : CodecFn) (p1 p2 : ℕ) : ℕ → List (List UInt8) → Encoded
  | _, [] => ⟨[], false⟩
  | room, chunk :: rest =>
    match storedCode F p1 p2 room chunk with
    | none => ⟨[], true⟩
    | some code => (encode F p1 p2 (subSize room code.length) rest).after [code]

namespace Encoded

theorem after_append (codes codes' : List (List UInt8)) (e : Encoded) :
    (e.after codes').after codes = e.after (codes ++ codes') := by
  simp [after]

/-- The codes of `n` chunks, where a chunk that was not stored has the empty code. -/
def padded (e : Encoded) (n : ℕ) : List (List UInt8) :=
  e.codes ++ List.replicate (n - e.codes.length) []

@[simp] theorem flatten_padded (e : Encoded) (n : ℕ) :
    (e.padded n).flatten = e.codes.flatten := by
  simp [padded]

theorem map_length_padded (e : Encoded) (n : ℕ) :
    (e.padded n).map List.length =
      e.codes.map List.length ++ List.replicate (n - e.codes.length) 0 := by
  simp [padded]

/-- What `lzbench_compress` returns. -/
def ret (e : Encoded) : ℤ := if e.aborted then 0 else toInt64 e.codes.flatten.length

end Encoded

/-- No more codes than chunks. -/
theorem encode_length_le (F : CodecFn) (p1 p2 room : ℕ) (chunks : List (List UInt8)) :
    (encode F p1 p2 room chunks).codes.length ≤ chunks.length := by
  induction chunks generalizing room with
  | nil => simp [encode]
  | cons chunk rest ih =>
    simp only [encode]
    cases storedCode F p1 p2 room chunk with
    | none => simp
    | some code =>
      have htail := ih (subSize room code.length)
      simp only [Encoded.after, List.length_append, List.length_cons, List.length_nil]
      omega

/-- What a list of (code, chunk size) is turned into, from the output offset `pos` on
and with `sum` bytes already claimed: the result and what is written. -/
def decode (F : CodecFn) (p1 p2 : ℕ) : ℕ → ℕ → List (List UInt8 × ℕ) → ℤ × Patch
  | _, sum, [] => (toInt64 sum, fun _ => none)
  | pos, sum, (code, size) :: rest =>
    let r := if code.length = size then (toInt64 size, Patch.ofList code)
      else F.decompress code size p1 p2
    if r.1 ≤ 0 then (r.1, r.2.shift pos)
    else
      let d := decode F p1 p2 (pos + toSize r.1) (addSize sum (toSize r.1)) rest
      (d.1, d.2.overlay (r.2.shift pos))

/-! ## Compression computes `encode` -/

section Compress

variable {F : CodecFn} {compress : CompressFunc σ} {inbuf : Mem}
  {param1 param2 workmem cap : ℕ}

/-- Two states with the same offsets and stored sizes. -/
structure SameOffsets (s s' : CompressState σ) : Prop where
  inpos_eq : s'.inpos = s.inpos
  outpos_eq : s'.outpos = s.outpos
  outsize_eq : s'.outsize = s.outsize
  sum_eq : s'.sum = s.sum
  sizes_eq : s'.sizes = s.sizes

/-- A chunk that the codec fails on, or returns at its own size, is stored as it is.  The
sizes are compared as `size_t`. -/
theorem storedCode_raw {room : ℕ} {chunk : List UInt8} {r : ℤ × Patch}
    (hr : r = F.compress chunk (min (getCompressBound chunk.length) room) param1 param2)
    (h : r.1 ≤ 0 ∨ toSize r.1 = chunk.length) :
    storedCode F param1 param2 room chunk = if room < chunk.length then none else some chunk := by
  have hlt : r.1 < 2 ^ 63 := hr ▸ F.compress_lt _ _ _ _
  have hcond : r.1 ≤ 0 ∨ r.1 = chunk.length := by
    by_cases hpos : 0 < r.1
    · have hcast := toSize_of_nonneg hpos.le (by omega)
      omega
    · exact Or.inl (not_lt.mp hpos)
  simp only [storedCode, ← hr, if_pos hcond]

/-- Any other chunk is stored as the bytes returned. -/
theorem storedCode_coded {room : ℕ} {chunk : List UInt8} {r : ℤ × Patch}
    (hr : r = F.compress chunk (min (getCompressBound chunk.length) room) param1 param2)
    (hpos : 0 < r.1) (hne : toSize r.1 ≠ chunk.length) :
    storedCode F param1 param2 room chunk = some (r.2.bytes (toSize r.1)) := by
  have hlt : r.1 < 2 ^ 63 := hr ▸ F.compress_lt _ _ _ _
  have hcast : toSize r.1 = r.1.toNat := toSize_of_nonneg hpos.le (by omega)
  have hcond : ¬ (r.1 ≤ 0 ∨ r.1 = chunk.length) := by omega
  simp only [storedCode, ← hr, if_neg hcond, hcast]

/-- One chunk: its code is put at the output pointer, or the loop is left. -/
theorem ends_compressStep_stored (hc : Computes F.compress compress) {s : CompressState σ}
    {part : ℕ} {P E : CompressState σ → Prop}
    (hstored : ∀ code (s' : CompressState σ), SameOffsets s s' →
      storedCode F param1 param2 s.outsize (inbuf.bytes s.inpos part) = some code →
      s'.outbuf.bytes s.outpos code.length = code →
      Mem.Agree s.outbuf s'.outbuf 0 s.outpos → P (s'.store part code.length))
    (habort : ∀ s' : CompressState σ, SameOffsets s s' →
      storedCode F param1 param2 s.outsize (inbuf.bytes s.inpos part) = none →
      Mem.Agree s.outbuf s'.outbuf 0 s.outpos → E s') :
    Ends P E (compressStep compress inbuf param1 param2 workmem s part) := by
  let args := compressArgs inbuf param1 param2 workmem s part
  let chunk := inbuf.bytes s.inpos part
  let r := F.compress chunk (min (getCompressBound part) s.outsize) param1 param2
  have hlen : chunk.length = part := Mem.length_bytes _ _ _
  have hr : r = F.compress chunk (min (getCompressBound chunk.length) s.outsize) param1 param2 := by
    rw [hlen]
  obtain ⟨hret, hout⟩ : (compress args s.world).ret = r.1 ∧
      (compress args s.world).out = (r.2.shift s.outpos).onto s.outbuf := hc args s.world
  have hbefore : Mem.Agree s.outbuf (compress args s.world).out 0 s.outpos := by
    rw [hout]
    exact Patch.agree_onto_shift r.2 s.outbuf s.outpos
  refine ends_compressStep _ _ _ _ _ rfl ?raw ?coded ?abort
  case raw =>
    intro hraw hfit
    have hcode : storedCode F param1 param2 s.outsize chunk = some chunk := by
      rw [storedCode_raw hr (by rwa [← hret, hlen]), if_neg (by omega)]
    have hstore := hstored chunk ((s.called part (outpart s part)
      (compress args s.world)).copyRaw inbuf part) ⟨rfl, rfl, rfl, rfl, rfl⟩ hcode ?_ ?_
    · rwa [hlen] at hstore
    · rw [hlen]
      exact Mem.bytes_eq_bytes_iff.mpr (Mem.sameBytes_copy _ s.outpos inbuf s.inpos part)
    · exact hbefore.trans
        ((Mem.writesWithin_copy _ s.outpos inbuf s.inpos part).agree_before (by omega))
  case coded =>
    intro hpos hne
    change 0 < (compress args s.world).ret at hpos
    change toSize (compress args s.world).ret ≠ part at hne
    change P ((s.called part (outpart s part) (compress args s.world)).store part
      (toSize (compress args s.world).ret))
    rw [hret] at hpos hne ⊢
    have hcode := storedCode_coded hr hpos (by rwa [hlen])
    have hstore := hstored _ (s.called part (outpart s part) (compress args s.world))
      ⟨rfl, rfl, rfl, rfl, rfl⟩ hcode ?_ hbefore
    · rwa [Patch.length_bytes] at hstore
    · rw [Patch.length_bytes]
      change (compress args s.world).out.bytes s.outpos (toSize r.1) = _
      have hlt : r.1 < 2 ^ 63 := F.compress_lt _ _ _ _
      rw [hout, toSize_of_nonneg hpos.le (by omega)]
      exact (F.compress_covers _ _ _ _).bytes_onto_shift s.outbuf s.outpos
  case abort =>
    intro hraw hlt
    have hcode : storedCode F param1 param2 s.outsize chunk = none := by
      rw [storedCode_raw hr (by rwa [← hret, hlen]), if_pos (by omega)]
    exact habort _ ⟨rfl, rfl, rfl, rfl, rfl⟩ hcode hbefore

/-- The codes stored so far stand one behind the other, and what is still to be encoded
is encoded into the room left.  This is the invariant of the compression loop. -/
structure EncodesTo (F : CodecFn) (inbuf : Mem) (param1 param2 cap : ℕ) (done : List ℕ)
    (codes : List (List UInt8)) (s : CompressState σ) : Prop where
  sizes_eq : s.sizes = codes.map List.length
  sum_eq : s.sum = codes.flatten.length % 2 ^ 64
  bytes_eq : s.outbuf.bytes 0 s.outpos = codes.flatten
  encode_eq : ∀ rest, encode F param1 param2 cap (chunkData inbuf 0 (done ++ rest)) =
    (encode F param1 param2 s.outsize (chunkData inbuf s.inpos rest)).after codes

theorem encodes_step (hc : Computes F.compress compress)
    {s : CompressState σ} {done rest : List ℕ} {part : ℕ}
    (h : ∃ codes, EncodesTo F inbuf param1 param2 cap done codes s) :
    Ends (fun s' => ∃ codes, EncodesTo F inbuf param1 param2 cap (done ++ [part]) codes s')
      (fun s' => ∃ codes, encode F param1 param2 cap (chunkData inbuf 0 (done ++ part :: rest)) =
        ⟨codes, true⟩ ∧ s'.sizes = codes.map List.length ∧
        s'.outbuf.bytes 0 codes.flatten.length = codes.flatten)
      (compressStep compress inbuf param1 param2 workmem s part) := by
  obtain ⟨codes, hcodes⟩ := h
  have hpos : s.outpos = codes.flatten.length := by
    rw [← hcodes.bytes_eq, Mem.length_bytes]
  refine ends_compressStep_stored hc ?stored ?abort
  case stored =>
    intro code s' hoff hcode hbytes hag
    refine ⟨codes ++ [code], ?_, ?_, ?_, fun rest => ?_⟩
    · simp [CompressState.store, hoff.sizes_eq, hcodes.sizes_eq]
    · simp [CompressState.store, hoff.sum_eq, hcodes.sum_eq, addSize]
    · have hold : s'.outbuf.bytes 0 s.outpos = codes.flatten :=
        (Mem.bytes_eq_bytes_iff.mpr hag.symm).trans hcodes.bytes_eq
      simp only [CompressState.store, hoff.outpos_eq]
      rw [Mem.bytes_add, hold, Nat.zero_add, hbytes]
      simp
    · have hnext := hcodes.encode_eq (part :: rest)
      simp only [chunkData, encode, hcode] at hnext
      rw [List.append_assoc, List.singleton_append, hnext, Encoded.after_append]
      simp only [CompressState.store, hoff.outsize_eq, hoff.inpos_eq]
  case abort =>
    intro s' hoff hcode hag
    refine ⟨codes, ?_, ?_, ?_⟩
    · rw [hcodes.encode_eq]
      simp only [chunkData, encode, hcode, Encoded.after, List.append_nil]
    · rw [hoff.sizes_eq, hcodes.sizes_eq]
    · rw [← hpos]
      exact (Mem.bytes_eq_bytes_iff.mpr hag.symm).trans hcodes.bytes_eq

/-- The whole compression loop. -/
theorem encodes_run (hc : Computes F.compress compress) (chunks : List ℕ) (outbuf : Mem)
    (outsize : UInt64) (w : σ) :
    Ends (fun s => ∃ codes,
        encode F param1 param2 outsize.toNat (chunkData inbuf 0 chunks) = ⟨codes, false⟩ ∧
        s.sizes = codes.map List.length ∧ s.sum = codes.flatten.length % 2 ^ 64 ∧
        s.outbuf.bytes 0 codes.flatten.length = codes.flatten)
      (fun s => ∃ codes,
        encode F param1 param2 outsize.toNat (chunkData inbuf 0 chunks) = ⟨codes, true⟩ ∧
        s.sizes = codes.map List.length ∧
        s.outbuf.bytes 0 codes.flatten.length = codes.flatten)
      (chunks.foldlM (compressStep compress inbuf param1 param2 workmem)
        (compressInit outbuf outsize w)) := by
  refine Ends.mono (ends_foldlM (fun done s => ∃ codes,
      EncodesTo F inbuf param1 param2 outsize.toNat done codes s) chunks ?init ?step)
    (fun s hs => ?_) fun _ h => h
  case init =>
    refine ⟨[], rfl, rfl, rfl, fun rest => ?_⟩
    simp [compressInit, Encoded.after]
  case step =>
    intro done part rest s hxs hs
    rw [hxs]
    exact encodes_step hc hs
  obtain ⟨codes, hcodes⟩ := hs
  have hall := hcodes.encode_eq []
  have hpos : s.outpos = codes.flatten.length := by
    rw [← hcodes.bytes_eq, Mem.length_bytes]
  rw [List.append_nil] at hall
  refine ⟨codes, ?_, hcodes.sizes_eq, hcodes.sum_eq, ?_⟩
  · simpa [chunkData, encode, Encoded.after] using hall
  · rw [← hpos]
    exact hcodes.bytes_eq

/-- What `compr_sizes` may hold before a call so that the chunks that are not stored have
the size zero after it: nothing, or the sizes of the same codes. -/
theorem lzbenchCompress_encode (hc : Computes F.compress compress)
    {chunkSizes comprSizes : List ℕ} {outbuf : Mem} {outsize : UInt64} {w : σ}
    {r : CompressResult σ} {counted : List ℕ}
    (hcounted : counted = chunkSizes.take (chunkCount chunkSizes.length).toNat)
    {e : Encoded} (he : e = encode F param1 param2 outsize.toNat (chunkData inbuf 0 counted))
    (hprev : comprSizes = [] ∨ comprSizes = (e.padded counted.length).map List.length)
    (hr : lzbenchCompress compress inbuf param1 param2 workmem chunkSizes comprSizes outbuf
      outsize w = .ok r) :
    r.comprSizes = (e.padded counted.length).map List.length ∧ r.aborted = e.aborted ∧
      r.ret = e.ret ∧ r.outbuf.bytes 0 e.codes.flatten.length = e.codes.flatten := by
  have hlen : counted.length = (chunkCount chunkSizes.length).toNat := by
    rw [hcounted, List.length_take, Nat.min_eq_left (chunkCount_le _)]
  have hle : e.codes.length ≤ counted.length := by
    rw [he]
    exact (encode_length_le F param1 param2 _ _).trans_eq (length_chunkData inbuf 0 counted)
  -- in both cases the entries past the last code are zero
  have hrest : ∀ sizes : List ℕ, sizes = e.codes.map List.length →
      sizes ++ (comprSizes.takeD counted.length 0).drop sizes.length =
        (e.padded counted.length).map List.length := by
    intro sizes hsizes
    have hk : sizes.length = e.codes.length := by
      rw [hsizes, List.length_map]
    rw [Encoded.map_length_padded, hsizes, List.length_map]
    congr 1
    cases hprev with
    | inl hprev =>
      rw [hprev, List.takeD_nil, List.drop_replicate]
    | inr hprev =>
      have hfull : comprSizes.length = counted.length := by
        rw [hprev, Encoded.map_length_padded, List.length_append, List.length_map,
          List.length_replicate]
        omega
      rw [List.takeD_eq_take _ hfull.ge, ← hfull, List.take_length, hprev,
        Encoded.map_length_padded, List.drop_append, List.drop_of_length_le (by simp)]
      simp
  refine (ends_lzbenchCompress compress inbuf param1 param2 workmem comprSizes
    (hcounted ▸ encodes_run hc counted outbuf outsize w) (fun s hs => ?_) (fun s hs => ?_)
    (P := fun r => r.comprSizes = (e.padded counted.length).map List.length ∧
      r.aborted = e.aborted ∧ r.ret = e.ret ∧
      r.outbuf.bytes 0 e.codes.flatten.length = e.codes.flatten)).ok r hr
  · obtain ⟨codes, hcodes, hsizes, hsum, hbytes⟩ := hs
    rw [← hcounted, ← he] at hcodes
    subst hcodes
    simp only [compressResult, ← hlen]
    refine ⟨hrest _ hsizes, trivial, ?_, hbytes⟩
    rw [hsum, toInt64_mod]
    rfl
  · obtain ⟨codes, hcodes, hsizes, hbytes⟩ := hs
    rw [← hcounted, ← he] at hcodes
    subst hcodes
    simp only [compressResult, ← hlen]
    exact ⟨hrest _ hsizes, trivial, rfl, hbytes⟩

end Compress

/-! ## Decompression computes `decode` -/

section Decompress

variable {F : CodecFn} {decompress : CompressFunc σ} {inbuf : Mem} {param1 param2 workmem : ℕ}

/-- What a chunk is turned into is a result and a patch at the output pointer. -/
theorem decompressChunk_eq (hd : Computes F.decompress decompress) (workmem : ℕ)
    {s : DecompressState σ}
    {code : List UInt8} {size : ℕ} (hcode : inbuf.bytes s.inpos code.length = code)
    {c : CodecResult σ}
    (hr : c = decompressChunk decompress inbuf param1 param2 workmem s code.length size)
    {r : ℤ × Patch} (hr' : r = if code.length = size then (toInt64 size, Patch.ofList code)
      else F.decompress code size param1 param2) :
    c.ret = r.1 ∧ c.out = (r.2.shift s.outpos).onto s.outbuf := by
  subst hr hr'
  by_cases heq : code.length = size
  · rw [decompressChunk, if_pos heq, if_pos heq, Patch.copy_eq_onto, hcode, heq]
    exact ⟨rfl, rfl⟩
  · rw [decompressChunk, if_neg heq, if_neg heq]
    have hinput : (decompressArgs inbuf param1 param2 workmem s code.length size).input = code :=
      hcode
    obtain ⟨hret, hout⟩ := hd (decompressArgs inbuf param1 param2 workmem s code.length size)
      s.world
    rw [hinput] at hret hout
    exact ⟨hret, hout⟩

/-- What is written so far, and what is still to be decoded. -/
structure DecodesFrom (F : CodecFn) (param1 param2 : ℕ) (outbuf : Mem)
    (done : List (List UInt8 × ℕ)) (p : Patch) (s : DecompressState σ) : Prop where
  inpos_eq : s.inpos = (done.map Prod.fst).flatten.length
  outbuf_eq : s.outbuf = p.onto outbuf
  decode_eq : ∀ rest, decode F param1 param2 0 0 (done ++ rest) =
    ((decode F param1 param2 s.outpos s.sum rest).1,
      (decode F param1 param2 s.outpos s.sum rest).2.overlay p)

theorem decodes_step (hd : Computes F.decompress decompress) {outbuf : Mem}
    {s : DecompressState σ} {done rest : List (List UInt8 × ℕ)} {x : List UInt8 × ℕ}
    (hcode : inbuf.bytes s.inpos x.1.length = x.1)
    (h : ∃ p, DecodesFrom F param1 param2 outbuf done p s) :
    Ends (fun s' => ∃ p, DecodesFrom F param1 param2 outbuf (done ++ [x]) p s')
      (fun e => e.1 = (decode F param1 param2 0 0 (done ++ x :: rest)).1 ∧
        e.2.outbuf = (decode F param1 param2 0 0 (done ++ x :: rest)).2.onto outbuf)
      (decompressStep decompress inbuf param1 param2 workmem s (x.1.length, x.2)) := by
  obtain ⟨p, hp⟩ := h
  let r := if x.1.length = x.2 then (toInt64 x.2, Patch.ofList x.1)
    else F.decompress x.1 x.2 param1 param2
  obtain ⟨hret, hout⟩ := decompressChunk_eq hd workmem hcode rfl (r := r) rfl
  have hdecode : ∀ rest, decode F param1 param2 s.outpos s.sum (x :: rest) =
      if r.1 ≤ 0 then (r.1, r.2.shift s.outpos)
      else
        ((decode F param1 param2 (s.outpos + toSize r.1) (addSize s.sum (toSize r.1)) rest).1,
          (decode F param1 param2 (s.outpos + toSize r.1) (addSize s.sum (toSize r.1))
            rest).2.overlay (r.2.shift s.outpos)) := fun _ => rfl
  refine ends_decompressStep _ _ _ _ _ rfl ?done ?stop
  case done =>
    intro hpos
    rw [hret] at hpos ⊢
    refine ⟨(r.2.shift s.outpos).overlay p, ?_, ?_, fun rest => ?_⟩
    · simp [DecompressState.advance, DecompressState.wrote, hp.inpos_eq]
    · rw [Patch.onto_overlay, ← hp.outbuf_eq]
      exact hout
    · rw [List.append_assoc, List.singleton_append, hp.decode_eq, hdecode, if_neg (by omega)]
      simp only [Patch.overlay_assoc]
      rfl
  case stop =>
    intro hle
    rw [hret] at hle ⊢
    rw [hp.decode_eq, hdecode, if_pos hle]
    refine ⟨rfl, ?_⟩
    rw [Patch.onto_overlay, ← hp.outbuf_eq]
    exact hout

theorem fst_zip_initial {α β : Type*} (l : List α) (l' : List β) :
    (l.zip l').map Prod.fst <+: l := by
  induction l generalizing l' with
  | nil => simp
  | cons x l ih =>
    cases l' with
    | nil => simp
    | cons y l' => simpa using ih l'

/-- Decompressing codes that stand one behind the other writes what they decode to, over
whatever the output buffer holds. -/
theorem lzbenchDecompress_decode (hd : Computes F.decompress decompress) (workmem : ℕ)
    {codes : List (List UInt8)} {chunkSizes comprSizes : List ℕ}
    (hsizes : comprSizes = codes.map List.length)
    (hbytes : inbuf.bytes 0 codes.flatten.length = codes.flatten) (outbuf : Mem) (w : σ)
    {d : ℤ × Patch} (hdecode : d = decode F param1 param2 0 0
      ((codes.zip chunkSizes).take (chunkCount codes.length).toNat)) :
    (lzbenchDecompress decompress inbuf param1 param2 workmem chunkSizes comprSizes outbuf w).ret =
        d.1 ∧
      (lzbenchDecompress decompress inbuf param1 param2 workmem chunkSizes comprSizes outbuf
        w).outbuf = d.2.onto outbuf := by
  let entries := (codes.zip chunkSizes).take (chunkCount codes.length).toNat
  have hentries : (comprSizes.zip chunkSizes).take (chunkCount comprSizes.length).toNat =
      entries.map fun x => (x.1.length, x.2) := by
    rw [hsizes, List.length_map, List.map_take, List.zip_map_left]
    rfl
  -- the codes of the entries are a prefix of the codes in the buffer
  obtain ⟨tail, htail⟩ : entries.map Prod.fst <+: codes := by
    rw [List.map_take]
    exact (List.take_prefix _ _).trans (fst_zip_initial codes chunkSizes)
  refine lzbenchDecompress_of_run _ _ _ _ _
    (I := fun s => ∃ p, DecodesFrom F param1 param2 outbuf entries p s)
    (J := fun e => e.1 = d.1 ∧ e.2.outbuf = d.2.onto outbuf)
    (P := fun r => r.ret = d.1 ∧ r.outbuf = d.2.onto outbuf) ?run ?ok (fun _ he => he)
  case run =>
    rw [hentries, List.foldlM_map]
    refine ends_foldlM (fun done s => ∃ p, DecodesFrom F param1 param2 outbuf done p s) entries
      ⟨fun _ => none, rfl, rfl, fun rest => ?_⟩ ?_
    · simp [decompressInit]
    · intro done x rest s hxs hs
      obtain ⟨p, hp⟩ := hs
      have hcode : inbuf.bytes s.inpos x.1.length = x.1 := by
        rw [← htail, hxs] at hbytes
        simp only [List.map_append, List.map_cons, List.flatten_append, List.flatten_cons,
          List.append_assoc] at hbytes
        rw [← List.append_assoc] at hbytes
        have hin := Mem.bytes_of_append hbytes
        rw [Nat.zero_add, ← hp.inpos_eq] at hin
        exact hin
      rw [hdecode, show (codes.zip chunkSizes).take (chunkCount codes.length).toNat =
        done ++ x :: rest from hxs]
      exact decodes_step hd hcode ⟨p, hp⟩
  case ok =>
    rintro s ⟨p, hp⟩
    have hall := hp.decode_eq []
    rw [List.append_nil, decode, Patch.none_overlay] at hall
    rw [hdecode,
      show (codes.zip chunkSizes).take (chunkCount codes.length).toNat = entries from rfl, hall]
    exact ⟨rfl, hp.outbuf_eq⟩

end Decompress

end Lzbench
