import Lzbench.Decompress
import Lzbench.Capacity

/-!
# Round trip of the chunked store

Whatever mixture of failing, raw, shrinking and expanding chunks the codec produces,
the decompression loop takes the buffer apart at the same offsets as the compression
loop put it together.  The invariant of the first loop is about the stored bytes
alone: `Framed` says of every stored chunk what the second loop will do with it, and a
later chunk writes behind them.

## Main definitions

* `RoundTrips` — the contract between the two directions of a codec.
* `StoredChunk`, `Framed` — one chunk, and a prefix of the list, as stored.
* `RoundTrip` — what the two calls together are for.
-/

namespace Lzbench

open Imperative

variable {σ : Type}

/-- The decoder, in any state, turns `size` bytes into the chunk of `part` bytes at
`inpos`, from wherever they are copied to and wherever they are decoded to. -/
def DecodesTo (decompress : CompressFunc σ) (param1 param2 workmem : ℕ) (code : List UInt8)
    (inbuf : Mem) (inpos part : ℕ) : Prop :=
  ∀ (src : Mem) (srcpos : ℕ) (dst : Mem) (dstpos : ℕ) (w : σ),
    src.bytes srcpos code.length = code →
    let r := decompress ⟨src, srcpos, code.length, dst, dstpos, part, param1, param2, workmem⟩ w
    r.ret = part ∧ Mem.SameBytes r.out dstpos inbuf inpos part ∧
      Mem.WritesWithin dst r.out dstpos part

/-- The contract of a codec pair: the compressor writes inside its output size, and
where it returns a size that the benchmark takes for coded, that size fits and the
decoder maps the bytes written back. -/
structure RoundTrips (compress decompress : CompressFunc σ) : Prop where
  within : ∀ a w, Mem.WritesWithin a.outbuf (compress a w).out a.outpos a.outsize
  fits : ∀ a w, 0 < (compress a w).ret → (compress a w).ret ≠ a.insize →
    (compress a w).ret ≤ a.outsize
  back : ∀ a w, 0 < (compress a w).ret → (compress a w).ret ≠ a.insize →
    DecodesTo decompress a.param1 a.param2 a.workmem
      ((compress a w).out.bytes a.outpos (compress a w).ret.toNat) a.inbuf a.inpos a.insize

section Framed

variable (decompress : CompressFunc σ) (inbuf : Mem) (param1 param2 workmem : ℕ)

/-- The `size` bytes of `buf` at `outpos` hold the chunk of `part` bytes at `inpos`,
raw or coded, the two told apart by the size. -/
def StoredChunk (buf : Mem) (inpos outpos : ℕ) (entry : ℕ × ℕ) : Prop :=
  if entry.1 = entry.2 then Mem.SameBytes buf outpos inbuf inpos entry.2
  else DecodesTo decompress param1 param2 workmem (buf.bytes outpos entry.1) inbuf inpos entry.2

/-- The stored chunks of a list of (stored size, size), one behind the other. -/
def Framed (buf : Mem) : ℕ → ℕ → List (ℕ × ℕ) → Prop
  | _, _, [] => True
  | inpos, outpos, entry :: rest =>
    StoredChunk decompress inbuf param1 param2 workmem buf inpos outpos entry ∧
      Framed buf (inpos + entry.2) (outpos + entry.1) rest

variable {decompress inbuf param1 param2 workmem}

/-- A stored chunk is a statement about its own bytes. -/
theorem StoredChunk.congr {buf buf' : Mem} {inpos outpos : ℕ} {entry : ℕ × ℕ}
    (h : StoredChunk decompress inbuf param1 param2 workmem buf inpos outpos entry)
    (hag : Mem.Agree buf buf' outpos entry.1) :
    StoredChunk decompress inbuf param1 param2 workmem buf' inpos outpos entry := by
  by_cases heq : entry.1 = entry.2
  · rw [StoredChunk, if_pos heq] at h ⊢
    intro i hi
    rw [← hag i (by omega)]
    exact h i hi
  · rw [StoredChunk, if_neg heq] at h ⊢
    have hbytes : buf'.bytes outpos entry.1 = buf.bytes outpos entry.1 :=
      Mem.bytes_eq_bytes_iff.mpr hag.symm
    rw [hbytes]
    exact h

/-- The stored sizes of a list of entries. -/
def storedSum (entries : List (ℕ × ℕ)) : ℕ := (entries.map Prod.fst).sum

/-- The sizes of the chunks of a list of entries. -/
def chunkSum (entries : List (ℕ × ℕ)) : ℕ := (entries.map Prod.snd).sum

@[simp] theorem storedSum_nil : storedSum [] = 0 := rfl
@[simp] theorem chunkSum_nil : chunkSum [] = 0 := rfl

@[simp] theorem storedSum_cons (e : ℕ × ℕ) (es : List (ℕ × ℕ)) :
    storedSum (e :: es) = e.1 + storedSum es := by simp [storedSum]

@[simp] theorem chunkSum_cons (e : ℕ × ℕ) (es : List (ℕ × ℕ)) :
    chunkSum (e :: es) = e.2 + chunkSum es := by simp [chunkSum]

@[simp] theorem storedSum_append (es es' : List (ℕ × ℕ)) :
    storedSum (es ++ es') = storedSum es + storedSum es' := by simp [storedSum]

@[simp] theorem chunkSum_append (es es' : List (ℕ × ℕ)) :
    chunkSum (es ++ es') = chunkSum es + chunkSum es' := by simp [chunkSum]

/-- Writing behind the stored chunks disturbs none of them. -/
theorem Framed.congr {buf buf' : Mem} {entries : List (ℕ × ℕ)} {inpos outpos : ℕ}
    (h : Framed decompress inbuf param1 param2 workmem buf inpos outpos entries)
    (hag : Mem.Agree buf buf' outpos (storedSum entries)) :
    Framed decompress inbuf param1 param2 workmem buf' inpos outpos entries := by
  induction entries generalizing inpos outpos with
  | nil => trivial
  | cons entry rest ih =>
    rw [storedSum_cons] at hag
    refine ⟨h.1.congr (hag.sub le_rfl (by omega)), ih h.2 (hag.sub ?_ ?_)⟩ <;> omega

/-- One more chunk behind the others. -/
theorem Framed.append {buf : Mem} {entries : List (ℕ × ℕ)} {entry : ℕ × ℕ} {inpos outpos : ℕ}
    (h : Framed decompress inbuf param1 param2 workmem buf inpos outpos entries)
    (hentry : StoredChunk decompress inbuf param1 param2 workmem buf
      (inpos + chunkSum entries) (outpos + storedSum entries) entry) :
    Framed decompress inbuf param1 param2 workmem buf inpos outpos (entries ++ [entry]) := by
  induction entries generalizing inpos outpos with
  | nil => exact ⟨by simpa using hentry, trivial⟩
  | cons e rest ih =>
    refine ⟨h.1, ih h.2 ?_⟩
    rw [chunkSum_cons, storedSum_cons, ← Nat.add_assoc, ← Nat.add_assoc] at hentry
    exact hentry

/-- Each chunk is found at the sum of the sizes before it. -/
theorem Framed.entry {buf : Mem} {done rest : List (ℕ × ℕ)} {entry : ℕ × ℕ} {inpos outpos : ℕ}
    (h : Framed decompress inbuf param1 param2 workmem buf inpos outpos (done ++ entry :: rest)) :
    StoredChunk decompress inbuf param1 param2 workmem buf
      (inpos + chunkSum done) (outpos + storedSum done) entry := by
  induction done generalizing inpos outpos with
  | nil => simpa using h.1
  | cons e done ih =>
    have htail := ih h.2
    rw [chunkSum_cons, storedSum_cons, ← Nat.add_assoc, ← Nat.add_assoc]
    exact htail

end Framed

section Run

variable {compress decompress : CompressFunc σ} {inbuf : Mem} {param1 param2 workmem cap : ℕ}

/-- The invariant of the compression loop: the offsets agree, and what is stored so far
is framed. -/
structure Stores (decompress : CompressFunc σ) (inbuf : Mem) (param1 param2 workmem cap : ℕ)
    (done : List ℕ) (s : CompressState σ) : Prop extends Accounts cap done s where
  framed : Framed decompress inbuf param1 param2 workmem s.outbuf 0 0 (s.sizes.zip done)

theorem storedSum_zip {sizes chunks : List ℕ} (h : sizes.length = chunks.length) :
    storedSum (sizes.zip chunks) = sizes.sum := by
  rw [storedSum, List.map_fst_zip h.le]

theorem chunkSum_zip {sizes chunks : List ℕ} (h : sizes.length = chunks.length) :
    chunkSum (sizes.zip chunks) = chunks.sum := by
  rw [chunkSum, List.map_snd_zip h.ge]

/-- Storing a chunk whose bytes are in place behind the others keeps the frames. -/
theorem Stores.store {done : List ℕ} {s s' : CompressState σ} {part k : ℕ}
    (h : Stores decompress inbuf param1 param2 workmem cap done s)
    (hacc : Accounts cap (done ++ [part]) (s'.store part k)) (hsizes : s'.sizes = s.sizes)
    (hag : Mem.Agree s.outbuf s'.outbuf 0 s.outpos)
    (hentry : StoredChunk decompress inbuf param1 param2 workmem s'.outbuf s.inpos s.outpos
      (k, part)) :
    Stores decompress inbuf param1 param2 workmem cap (done ++ [part]) (s'.store part k) := by
  refine ⟨hacc, ?_⟩
  have hzip : (s'.store part k).sizes.zip (done ++ [part]) =
      s.sizes.zip done ++ [(k, part)] := by
    simp only [CompressState.store, hsizes]
    rw [List.zip_append h.length_eq]
    rfl
  have hstored : storedSum (s.sizes.zip done) = s.outpos := by
    rw [storedSum_zip h.length_eq, h.outpos_eq]
  have hchunks : chunkSum (s.sizes.zip done) = s.inpos := by
    rw [chunkSum_zip h.length_eq, h.inpos_eq]
  rw [hzip]
  refine (h.framed.congr ?_).append ?_
  · rw [hstored]
    exact hag
  · rw [hstored, hchunks, Nat.zero_add, Nat.zero_add]
    exact hentry

/-- One chunk: stored raw or coded, what is stored is framed. -/
theorem stores_step (hc : RoundTrips compress decompress) (hcap : cap < 2 ^ 64)
    {s : CompressState σ} {done : List ℕ} {part : ℕ} (hpart : part < 2 ^ 64)
    (h : Stores decompress inbuf param1 param2 workmem cap done s) :
    Ends (Stores decompress inbuf param1 param2 workmem cap (done ++ [part])) (fun _ => True)
      (compressStep compress inbuf param1 param2 workmem s part) := by
  have hroom : s.outsize + s.sizes.sum = cap := h.room_eq
  have hwithin := hc.within (compressArgs inbuf param1 param2 workmem s part) s.world
  have hbefore : Mem.Agree s.outbuf
      (compress (compressArgs inbuf param1 param2 workmem s part) s.world).out 0 s.outpos :=
    hwithin.agree_before (by simp [compressArgs])
  refine ends_compressStep _ _ _ _ _ rfl ?raw ?coded ?abort
  case raw =>
    intro _ hle
    refine h.store (((h.toAccounts.called _ _ _).copyRaw _ _).store hcap hle) rfl ?_ ?_
    · exact hbefore.trans
        ((Mem.writesWithin_copy _ s.outpos inbuf s.inpos part).agree_before (by omega))
    · rw [StoredChunk, if_pos rfl]
      exact Mem.sameBytes_copy _ s.outpos inbuf s.inpos part
  case coded =>
    intro hpos hne
    have hinsize : (compressArgs inbuf param1 param2 workmem s part).insize = part := rfl
    have hret : (compress (compressArgs inbuf param1 param2 workmem s part) s.world).ret ≠
        (compressArgs inbuf param1 param2 workmem s part).insize := by
      intro heq
      rw [hinsize] at heq
      exact hne (by rw [heq, toSize_ofNat hpart])
    have hfits := hc.fits _ _ hpos hret
    have hout : (compressArgs inbuf param1 param2 workmem s part).outsize ≤ s.outsize :=
      Nat.min_le_right _ _
    have hclen := toSize_clen s.outsize (by omega) hpos (by omega)
    refine h.store ((h.toAccounts.called _ _ _).store hcap hclen.2) rfl hbefore ?_
    rw [StoredChunk, if_neg hne]
    have hback := hc.back _ _ hpos hret
    rw [← hclen.1] at hback
    exact hback
  case abort =>
    intro _ _
    trivial

/-- The whole compression loop. -/
theorem stores_run (hc : RoundTrips compress decompress) {chunks : List ℕ}
    (hchunks : ∀ c ∈ chunks, c < 2 ^ 64) (outbuf : Mem) (outsize : UInt64) (w : σ) :
    Ends (Stores decompress inbuf param1 param2 workmem outsize.toNat chunks) (fun _ => True)
      (chunks.foldlM (compressStep compress inbuf param1 param2 workmem)
        (compressInit outbuf outsize w)) := by
  refine ends_foldlM (Stores decompress inbuf param1 param2 workmem outsize.toNat) chunks
    ⟨Accounts.init outbuf outsize w, trivial⟩ ?_
  intro done part rest s hxs h
  exact stores_step hc outsize.toNat_lt (hchunks part (by simp [hxs])) h

/-- The invariant of the decompression loop: the pointers stand behind the chunks done,
and their bytes are back. -/
structure Restores (inbuf : Mem) (done : List (ℕ × ℕ)) (s : DecompressState σ) : Prop where
  inpos_eq : s.inpos = storedSum done
  outpos_eq : s.outpos = chunkSum done
  sum_eq : s.sum = chunkSum done
  bytes_eq : Mem.SameBytes s.outbuf 0 inbuf 0 (chunkSum done)

/-- A stored chunk comes back at the output pointer, and nowhere else. -/
theorem decompressChunk_stored {buf : Mem} {s : DecompressState σ} {entry : ℕ × ℕ} {inpos : ℕ}
    (h : StoredChunk decompress inbuf param1 param2 workmem buf inpos s.inpos entry)
    (hsize : entry.2 ≤ ptrdiffMax) {r : CodecResult σ}
    (hr : r = decompressChunk decompress buf param1 param2 workmem s entry.1 entry.2) :
    r.ret = entry.2 ∧ Mem.SameBytes r.out s.outpos inbuf inpos entry.2 ∧
      Mem.WritesWithin s.outbuf r.out s.outpos entry.2 := by
  subst hr
  by_cases heq : entry.1 = entry.2
  · rw [StoredChunk, if_pos heq] at h
    simp only [decompressChunk, heq, if_true, toInt64_ofNat hsize, true_and]
    refine ⟨fun i hi => ?_, Mem.writesWithin_copy _ _ _ _ _⟩
    exact (Mem.sameBytes_copy s.outbuf s.outpos buf s.inpos entry.2 i hi).trans (h i hi)
  · rw [StoredChunk, if_neg heq] at h
    rw [decompressChunk, if_neg heq]
    have hdec := h buf s.inpos s.outbuf s.outpos s.world (by rw [Mem.length_bytes])
    rw [Mem.length_bytes] at hdec
    exact hdec

/-- One stored chunk of a framed list. -/
theorem restores_step {buf : Mem} {done : List (ℕ × ℕ)} {entry : ℕ × ℕ}
    {s : DecompressState σ} (hs : Restores inbuf done s)
    (hentry : StoredChunk decompress inbuf param1 param2 workmem buf
      (chunkSum done) (storedSum done) entry)
    (hpos : 0 < entry.2) (hobj : chunkSum done + entry.2 ≤ ptrdiffMax) :
    Ends (Restores inbuf (done ++ [entry])) (fun _ => False)
      (decompressStep decompress buf param1 param2 workmem s entry) := by
  rw [← hs.inpos_eq] at hentry
  obtain ⟨hret, hbytes, hwithin⟩ := decompressChunk_stored hentry (by omega) rfl
  have hcast : toSize (decompressChunk decompress buf param1 param2 workmem s
      entry.1 entry.2).ret = entry.2 := by
    rw [hret, toSize_ofNat (lt_of_le_ptrdiffMax (by omega))]
  refine ends_decompressStep _ _ _ _ _ rfl (fun _ => ?_) (fun hle => by omega)
  rw [hcast]
  constructor
  · simp [DecompressState.advance, DecompressState.wrote, hs.inpos_eq]
  · simp [DecompressState.advance, DecompressState.wrote, hs.outpos_eq]
  · have hadd : addSize (chunkSum done) entry.2 = chunkSum done + entry.2 :=
      addSize_of_lt (lt_of_le_ptrdiffMax hobj)
    simp [DecompressState.advance, DecompressState.wrote, hs.sum_eq, hadd]
  · intro i hi
    simp only [chunkSum_append, chunkSum_cons, chunkSum_nil, Nat.add_zero, Nat.zero_add] at hi ⊢
    by_cases hlt : i < chunkSum done
    · -- a chunk that came back earlier
      have hold := hwithin i (Or.inl (by rw [hs.outpos_eq]; exact hlt))
      have hdone := hs.bytes_eq i hlt
      rw [Nat.zero_add] at hdone
      exact hold.trans hdone
    · -- the chunk that comes back now
      have hnew := hbytes (i - chunkSum done) (by omega)
      rw [hs.outpos_eq, Nat.add_sub_cancel' (by omega)] at hnew
      exact hnew

/-- The whole decompression loop over framed chunks. -/
theorem restores_run {buf : Mem} {entries : List (ℕ × ℕ)}
    (hframed : Framed decompress inbuf param1 param2 workmem buf 0 0 entries)
    (hpos : ∀ e ∈ entries, 0 < e.2) (hobj : chunkSum entries ≤ ptrdiffMax)
    (outbuf : Mem) (w : σ) :
    Ends (Restores inbuf entries) (fun _ => False)
      (entries.foldlM (decompressStep decompress buf param1 param2 workmem)
        (decompressInit outbuf w)) := by
  refine ends_foldlM (Restores inbuf) entries ⟨rfl, rfl, rfl, fun i hi => ?_⟩ ?_
  · simp at hi
  · intro done entry rest s hxs hs
    have hentry := (hxs ▸ hframed).entry
    rw [Nat.zero_add, Nat.zero_add] at hentry
    refine restores_step hs hentry (hpos entry (by simp [hxs])) ?_
    rw [hxs, chunkSum_append, chunkSum_cons] at hobj
    omega

end Run

/-- The round trip of a list of chunks: the call leaves through `return 0`, or
`lzbench_decompress` on what it produced returns the size of the input and leaves the
input in the output buffer.  A call that throws produces nothing. -/
def RoundTrip (compress decompress : CompressFunc σ) (inbuf : Mem) (param1 param2 workmem : ℕ)
    (chunkSizes comprSizes : List ℕ) (compbuf : Mem) (outsize : UInt64) (w : σ) (decomp : Mem)
    (w' : σ) : Prop :=
  Ends (fun r => r.aborted = true ∨
      let d := lzbenchDecompress decompress r.outbuf param1 param2 workmem chunkSizes
        r.comprSizes decomp w'
      d.ret = chunkSizes.sum ∧ Mem.SameBytes d.outbuf 0 inbuf 0 chunkSizes.sum)
    (fun _ => False)
    (lzbenchCompress compress inbuf param1 param2 workmem chunkSizes comprSizes compbuf outsize w)

section RoundTrip

variable {compress decompress : CompressFunc σ} {param1 param2 workmem : ℕ}

/-- What the two calls do on any list: the chunks that the `int` count takes in come
back, and no others. -/
theorem roundTrip_counted (hc : RoundTrips compress decompress) {inbuf : Mem}
    {chunkSizes : List ℕ} (hpos : ∀ c ∈ chunkSizes, 0 < c) (hobj : chunkSizes.sum ≤ ptrdiffMax)
    (comprSizes : List ℕ) (compbuf : Mem) (outsize : UInt64) (w : σ) (decomp : Mem) (w' : σ) :
    Ends (fun r => r.aborted = true ∨
      let counted := chunkSizes.take (chunkCount chunkSizes.length).toNat
      let d := lzbenchDecompress decompress r.outbuf param1 param2 workmem chunkSizes
        r.comprSizes decomp w'
      d.ret = counted.sum ∧ Mem.SameBytes d.outbuf 0 inbuf 0 counted.sum)
    (fun e => e = Stop.lengthError ∧ chunkCount chunkSizes.length < 0)
    (lzbenchCompress compress inbuf param1 param2 workmem chunkSizes comprSizes compbuf outsize
      w) := by
  let counted := chunkSizes.take (chunkCount chunkSizes.length).toNat
  have hcounted : counted.length = (chunkCount chunkSizes.length).toNat := by
    rw [List.length_take, Nat.min_eq_left (chunkCount_le _)]
  have hsub : counted.sum ≤ chunkSizes.sum :=
    (List.take_sublist _ _).sum_le_sum fun _ _ => Nat.zero_le _
  have hsize : ∀ c ∈ counted, c < 2 ^ 64 := fun c hc =>
    lt_of_le_ptrdiffMax ((List.le_sum_of_mem hc).trans (hsub.trans hobj))
  refine ends_lzbenchCompress _ _ _ _ _ _ (stores_run hc hsize compbuf outsize w)
    (fun s hs => Or.inr ?_) (fun _ _ => Or.inl rfl)
  have hlen : s.sizes.length = counted.length := hs.length_eq
  have hshort : counted.length < 2 ^ 31 := by
    have hlt := chunkCount_lt chunkSizes.length
    omega
  have hzip : (s.sizes.zip chunkSizes).take (chunkCount s.sizes.length).toNat =
      s.sizes.zip counted := by
    rw [hlen, chunkCount_of_lt hshort, Int.toNat_natCast, List.zip, List.take_zipWith,
      List.take_of_length_le hlen.le, hcounted]
  have hmem : ∀ e ∈ s.sizes.zip counted, 0 < e.2 := fun e he =>
    hpos e.2 (List.mem_of_mem_take (List.of_mem_zip he).2)
  simp only [compressResult, stored_append_drop (hlen.trans hcounted)]
  have hsum : chunkSum (s.sizes.zip counted) = counted.sum := chunkSum_zip hlen
  refine lzbenchDecompress_of_run _ _ _ _ _ (I := Restores inbuf (s.sizes.zip counted))
    (J := fun _ => False) ?run (fun d hd => ?_) (fun _ h => h.elim)
    (P := fun d => d.ret = counted.sum ∧ Mem.SameBytes d.outbuf 0 inbuf 0 counted.sum)
  case run =>
    rw [hzip]
    exact restores_run hs.framed hmem (by omega) decomp w'
  have hbytes := hd.bytes_eq
  rw [hsum] at hbytes
  simp only [decompressResult, hd.sum_eq, hsum, toInt64_ofNat (hsub.trans hobj)]
  exact ⟨trivial, hbytes⟩

/-- The baseline codec: nothing is ever coded. -/
theorem roundTrips_return0 : RoundTrips (lzbenchReturn0 : CompressFunc σ) lzbenchMemcpy where
  within _ _ := Mem.writesWithin_refl _ _ _
  fits _ _ hpos := by simp [lzbenchReturn0] at hpos
  back _ _ hpos := by simp [lzbenchReturn0] at hpos

/-- The codec of runs keeps the contract. -/
theorem roundTrips_run :
    RoundTrips (runCompress.call : CompressFunc σ) (runDecompress.call : CompressFunc σ) where
  within a _ := Patch.writesWithin_onto_shift
    (runCompress_within a.input a.outsize a.param1 a.param2) a.outbuf a.outpos
  fits a _ _ _ := (runCompress_le a.input a.outsize a.param1 a.param2).trans
    (by exact_mod_cast Nat.min_le_right 1 a.outsize)
  back a w hpos _ := by
    simp only [CodeFn.call, runCompress] at hpos ⊢
    split at hpos
    · simp at hpos
    rename_i b rest hinput
    by_cases hrun : rest.all (· == b) ∧ 1 ≤ a.outsize
    · simp only [if_pos hrun]
      intro src srcpos dst dstpos _ hsrc
      have hcode : src.bytes srcpos 1 = [b] := by
        simpa [Mem.bytes, Patch.onto, Patch.shift, Patch.ofList] using hsrc
      simp only [Mem.length_bytes, Int.toNat_one, CodeFn.call, runDecompress, CodecArgs.input,
        hcode]
      refine ⟨trivial, fun i hi => ?_, Patch.writesWithin_onto_shift ?_ _ _⟩
      · -- every byte of the chunk is `b`
        have hall : a.inbuf (a.inpos + i) ∈ b :: rest := by
          rw [← hinput]
          exact List.mem_map.mpr ⟨i, List.mem_range.mpr hi, rfl⟩
        have hb : a.inbuf (a.inpos + i) = b := by
          cases List.mem_cons.mp hall with
          | inl h =>
            exact h
          | inr h =>
            simpa using List.all_eq_true.mp hrun.1 _ h
        simp [Patch.onto, Patch.shift, Patch.ofList, hi, hb]
      · intro p hp
        simpa [Patch.ofList] using hp
    · rw [if_neg hrun] at hpos
      simp at hpos

/-- Too many chunks for the `int` count: the store loses the chunks beyond it, already
with the codec of the baseline. -/
theorem not_roundTrip_of_long {inbuf : Mem} {chunkSizes : List ℕ}
    (hpos : ∀ c ∈ chunkSizes, 0 < c) (hobj : chunkSizes.sum ≤ ptrdiffMax)
    (hlong : 2 ^ 31 ≤ chunkSizes.length) (outsize : UInt64)
    (hroom : chunkSizes.sum ≤ outsize.toNat) (compbuf decomp : Mem) :
    ¬ RoundTrip (σ := Unit) lzbenchReturn0 lzbenchMemcpy inbuf param1 param2 workmem
      chunkSizes [] compbuf outsize () decomp () := by
  intro h
  have hc : RoundTrips (lzbenchReturn0 : CompressFunc Unit) lzbenchMemcpy := roundTrips_return0
  have hexpands : NeverExpands (lzbenchReturn0 : CompressFunc Unit) := fun a _ => by
    simp [lzbenchReturn0]
  simp only [RoundTrip] at h
  cases hrun : lzbenchCompress (lzbenchReturn0 : CompressFunc Unit) inbuf param1 param2 workmem
      chunkSizes [] compbuf outsize () with
  | error e => exact h.error e hrun
  | ok r =>
    have hab := ((ends_lzbenchCompress_shrinks inbuf hexpands [] (boundFits_of_le_ptrdiffMax hobj)
      compbuf hroom ()).ok r hrun).1
    -- both rules speak about the one decompression of the one result
    rcases h.ok r hrun with hab' | ⟨hall, -⟩
    · simp [hab] at hab'
    rcases (roundTrip_counted hc hpos hobj [] compbuf outsize () decomp ()).ok r hrun with
      hab' | ⟨hcounted, -⟩
    · simp [hab] at hab'
    have heq : (chunkSizes.take (chunkCount chunkSizes.length).toNat).sum = chunkSizes.sum := by
      exact_mod_cast hcounted.symm.trans hall
    have hlt := chunkCount_lt_of_ge hlong
    have hdrop : (chunkSizes.drop (chunkCount chunkSizes.length).toNat).sum = 0 := by
      have hsplit := congrArg List.sum
        (List.take_append_drop (chunkCount chunkSizes.length).toNat chunkSizes)
      rw [List.sum_append, heq] at hsplit
      omega
    have hmem : chunkSizes[(chunkCount chunkSizes.length).toNat] ∈
        chunkSizes.drop (chunkCount chunkSizes.length).toNat := by
      rw [List.drop_eq_getElem_cons hlt]
      exact List.mem_cons_self
    have hzero := List.sum_eq_zero_iff.mp hdrop _ hmem
    have hposc := hpos _ (List.getElem_mem hlt)
    omega

/-- The round trip holds for every outsize and every codec pair exactly when the chunks
can be counted in an `int`. -/
theorem roundTrip_iff (inbuf : Object) (chunkSizes : List ℕ) (hpos : ∀ c ∈ chunkSizes, 0 < c)
    (hsum : chunkSizes.sum = inbuf.size) :
    (∀ (σ : Type) (compress decompress : CompressFunc σ) (param1 param2 workmem : ℕ)
        (comprSizes : List ℕ) (compbuf : Mem) (outsize : UInt64) (w : σ) (decomp : Mem) (w' : σ),
      RoundTrips compress decompress →
      RoundTrip compress decompress inbuf.mem param1 param2 workmem chunkSizes comprSizes
        compbuf outsize w decomp w') ↔
      chunkSizes.length < 2 ^ 31 := by
  have hobj : chunkSizes.sum ≤ ptrdiffMax := hsum.trans_le inbuf.size_le
  constructor
  · intro h
    by_contra hlong
    have hcap : (UInt64.ofNat chunkSizes.sum).toNat = chunkSizes.sum :=
      UInt64.toNat_ofNat_of_lt' (lt_of_le_ptrdiffMax hobj)
    have hc : RoundTrips (lzbenchReturn0 : CompressFunc Unit) lzbenchMemcpy := roundTrips_return0
    exact not_roundTrip_of_long hpos hobj (by omega) _ hcap.ge inbuf.mem inbuf.mem
      (h Unit lzbenchReturn0 lzbenchMemcpy 0 0 0 [] inbuf.mem _ () inbuf.mem () hc)
  · intro hlen σ compress decompress param1 param2 workmem comprSizes compbuf outsize w decomp w' hc
    have hall := take_chunkCount hlen
    refine (roundTrip_counted hc hpos hobj comprSizes compbuf outsize w decomp w').mono ?_ ?_
    · rw [hall]
      exact fun r hr => hr
    · intro e he
      rw [chunkCount_of_lt hlen] at he
      omega

/-- A run of two bytes, coded, and one more run, in a buffer that fits both. -/
theorem roundTrip_runs :
    RoundTrip (σ := Unit) runCompress.call runDecompress.call (Mem.ofList [7, 7, 1, 1, 1]) 0 0 0
      [2, 3] [] (Mem.ofList []) 20000 () (Mem.ofList []) () :=
  (roundTrip_iff ⟨Mem.ofList [7, 7, 1, 1, 1], 5, by decide⟩ [2, 3] (by decide) rfl).mpr (by decide)
    Unit _ _ 0 0 0 [] (Mem.ofList []) 20000 () (Mem.ofList []) () roundTrips_run

/-- `2 ^ 32` chunks of one byte are counted as none: the call stores nothing, and not
through `return 0`. -/
theorem roundTrip_long :
    (∀ c ∈ List.replicate (2 ^ 32) 1, 0 < c) ∧ (List.replicate (2 ^ 32) 1).sum = 2 ^ 32 ∧
    RoundTrips (lzbenchReturn0 : CompressFunc Unit) lzbenchMemcpy ∧
    ¬ RoundTrip (σ := Unit) lzbenchReturn0 lzbenchMemcpy (Mem.ofList []) 0 0 0
      (List.replicate (2 ^ 32) 1) [] (Mem.ofList []) (UInt64.ofNat (2 ^ 32)) ()
      (Mem.ofList []) () := by
  have hpos : ∀ c ∈ List.replicate (2 ^ 32) 1, 0 < c := fun c hc => by
    rw [List.eq_of_mem_replicate hc]
    exact Nat.one_pos
  have hsum : (List.replicate (2 ^ 32) 1).sum = 2 ^ 32 := by
    rw [List.sum_replicate_nat, Nat.mul_one]
  have hcap : (UInt64.ofNat (2 ^ 32)).toNat = 2 ^ 32 := UInt64.toNat_ofNat_of_lt' (by norm_num)
  refine ⟨hpos, hsum, roundTrips_return0, not_roundTrip_of_long hpos ?_ ?_ _ ?_ _ _⟩
  · rw [hsum]
    decide
  · rw [List.length_replicate]
    norm_num
  · rw [hsum, hcap]

end RoundTrip

end Lzbench
