import Lzbench.Capacity
import Lzbench.Lib.CString
import Lzbench.Outcome

/-!
# Joined files are compressed independently

`-j` benchmarks many files in one buffer, cut file by file.  The chunk size is capped by
the whole input there and by the single file otherwise, which makes no difference to
the chunks of a file; and a codec that depends on its input bytes alone stores the
same for a chunk wherever it stands.  So the size recorded for the joined files is the
sum of the sizes recorded for each of them, as far as the `int` that counts the chunks
goes.

## Main definitions

* `fileChunks`, `joinedChunks` — the chunks of a file alone, and of all files.
* `storedTotal` — what a list of chunks takes in the store.
* `FilesRun`, `JoinAgrees` — runs on files, and the statement about them.
* `CountsAgree` — the chunks that are counted agree.
* `joinAgrees_iff` — when the joined files are compressed independently.
-/

namespace Lzbench

open Imperative

/-! ## Chunks of one file and of many -/

/-- The chunks of a file that is benchmarked alone. -/
def fileChunks (chunkSize : ℕ) (maxBlockSize : ℤ) (size : ℕ) : List ℕ :=
  (splitFiles (effectiveChunkSize chunkSize size maxBlockSize) [size]).getD []

/-- The chunks of joined files. -/
def joinedChunks (chunkSize : ℕ) (maxBlockSize : ℤ) (fileSizes : List ℕ) : List ℕ :=
  (splitFiles (effectiveChunkSize chunkSize fileSizes.sum maxBlockSize) fileSizes).getD []

section Chunks

variable {chunkSize : ℕ} {maxBlockSize : ℤ}

/-- A smaller input caps the chunk size by its own size. -/
theorem effectiveChunkSize_of_le {insize total : ℕ} (hle : insize ≤ total) :
    effectiveChunkSize chunkSize insize maxBlockSize =
      min (effectiveChunkSize chunkSize total maxBlockSize) insize := by
  simp only [effectiveChunkSize]
  split_ifs <;> omega

theorem effectiveChunkSize_pos (hchunk : 0 < chunkSize)
    (hmax : maxBlockSize ≠ 0 → 0 < toSize maxBlockSize) {insize : ℕ} (hpos : 0 < insize) :
    0 < effectiveChunkSize chunkSize insize maxBlockSize := by
  simp only [effectiveChunkSize]
  split_ifs <;> grind

/-- The cap by the file's own size does not change its chunks. -/
theorem splitFile_min (c size : ℕ) :
    splitFile (min c size) size = splitFile c size := by
  rcases Nat.eq_zero_or_pos size with rfl | hpos
  · simp
  · by_cases hle : c ≤ size
    · rw [Nat.min_eq_left hle]
    · rw [Nat.min_eq_right (by omega), splitFile_of_le hpos le_rfl, splitFile_of_le hpos (by omega)]

/-- Files are cut one by one. -/
theorem splitFiles_eq {c : ℕ} {fileSizes : List ℕ} {chunks : ℕ → List ℕ}
    (h : ∀ size ∈ fileSizes, splitFile c size = some (chunks size)) :
    splitFiles c fileSizes = some (fileSizes.flatMap chunks) := by
  induction fileSizes with
  | nil => rfl
  | cons size rest ih =>
    have hrest := ih fun size' hmem => h size' (List.mem_cons_of_mem _ hmem)
    simp [splitFiles, h size List.mem_cons_self, hrest]

/-- The chunks of a file alone are all of it. -/
theorem splitFile_fileChunks (hchunk : 0 < chunkSize)
    (hmax : maxBlockSize ≠ 0 → 0 < toSize maxBlockSize) (size : ℕ) :
    splitFile (effectiveChunkSize chunkSize size maxBlockSize) size =
      some (fileChunks chunkSize maxBlockSize size) := by
  rcases Nat.eq_zero_or_pos size with rfl | hpos
  · rw [fileChunks]
    rfl
  · obtain ⟨chunks, heq, -⟩ := splitLoop_spec (effectiveChunkSize_pos hchunk hmax hpos) size size
      le_rfl
    have hfile : splitFile (effectiveChunkSize chunkSize size maxBlockSize) size = some chunks :=
      heq
    simp [fileChunks, splitFiles, hfile]

theorem splitFiles_file (hchunk : 0 < chunkSize)
    (hmax : maxBlockSize ≠ 0 → 0 < toSize maxBlockSize) (size : ℕ) :
    splitFiles (effectiveChunkSize chunkSize size maxBlockSize) [size] =
      some (fileChunks chunkSize maxBlockSize size) := by
  simp [splitFiles, splitFile_fileChunks hchunk hmax]

/-- In joined files every file has the chunks it has alone. -/
theorem splitFiles_joined (hchunk : 0 < chunkSize)
    (hmax : maxBlockSize ≠ 0 → 0 < toSize maxBlockSize) (fileSizes : List ℕ) :
    splitFiles (effectiveChunkSize chunkSize fileSizes.sum maxBlockSize) fileSizes =
      some (fileSizes.flatMap (fileChunks chunkSize maxBlockSize)) := by
  apply splitFiles_eq
  intro size hmem
  rw [← splitFile_fileChunks hchunk hmax size,
    effectiveChunkSize_of_le (List.single_le_sum (fun _ _ => Nat.zero_le _) size hmem),
    splitFile_min]

theorem joinedChunks_eq (hchunk : 0 < chunkSize)
    (hmax : maxBlockSize ≠ 0 → 0 < toSize maxBlockSize) (fileSizes : List ℕ) :
    joinedChunks chunkSize maxBlockSize fileSizes =
      fileSizes.flatMap (fileChunks chunkSize maxBlockSize) := by
  rw [joinedChunks, splitFiles_joined hchunk hmax, Option.getD_some]

/-- The number of chunks of a file, rounded up. -/
theorem length_splitFile {c : ℕ} (hc : 0 < c) {size : ℕ} {chunks : List ℕ}
    (h : splitFile c size = some chunks) : chunks.length = (size + c - 1) / c := by
  have hloop : ∀ fuel tmpsize chunks, tmpsize ≤ fuel → splitLoop c fuel tmpsize = some chunks →
      chunks.length = (tmpsize + c - 1) / c := by
    intro fuel
    induction fuel with
    | zero =>
      intro tmpsize chunks hle h
      obtain rfl : tmpsize = 0 := by omega
      obtain rfl : [] = chunks := by simpa [splitLoop] using h
      exact (Nat.div_eq_of_lt (by omega)).symm
    | succ fuel ih =>
      intro tmpsize chunks hle h
      rw [splitLoop] at h
      by_cases hpos : tmpsize > 0
      · rw [if_pos hpos] at h
        obtain ⟨rest, hrest, rfl⟩ := Option.map_eq_some_iff.mp h
        rw [List.length_cons, ih _ rest (by omega) hrest]
        by_cases hlast : tmpsize ≤ c
        · have hone : (tmpsize + c - 1) / c = 1 := Nat.div_eq_of_lt_le (by omega) (by omega)
          rw [Nat.min_eq_left hlast, Nat.sub_self, Nat.zero_add, Nat.div_eq_of_lt (by omega), hone]
        · have hnext : tmpsize + c - 1 = tmpsize - c + c - 1 + c := by omega
          rw [Nat.min_eq_right (by omega), hnext, Nat.add_div_right _ hc]
      · rw [if_neg hpos] at h
        obtain rfl : tmpsize = 0 := by omega
        obtain rfl : [] = chunks := Option.some.inj h
        exact (Nat.div_eq_of_lt (by omega)).symm
  exact hloop size size chunks le_rfl h

end Chunks

/-! ## What is stored -/

/-- What one chunk takes in the store, under a codec with the result `f`. -/
def storedSize (f : List UInt8 → ℤ) (chunk : List UInt8) : ℕ :=
  if f chunk ≤ 0 then chunk.length else (f chunk).toNat

/-- What the chunks of some content take. -/
def storedTotal (f : List UInt8 → ℤ) (content : List UInt8) (chunkSizes : List ℕ) : ℕ :=
  ((chunkData (Mem.ofList content) 0 chunkSizes).map (storedSize f)).sum

theorem chunkData_append (inbuf : Mem) (pos : ℕ) (xs ys : List ℕ) :
    chunkData inbuf pos (xs ++ ys) =
      chunkData inbuf pos xs ++ chunkData inbuf (pos + xs.sum) ys := by
  induction xs generalizing pos with
  | nil => simp [chunkData]
  | cons x xs ih => simp [chunkData, ih, Nat.add_assoc]

/-- The chunks are a function of the bytes they are cut from. -/
theorem chunkData_congr {m m' : Mem} {pos pos' : ℕ} {sizes : List ℕ}
    (h : Mem.SameBytes m pos m' pos' sizes.sum) :
    chunkData m pos sizes = chunkData m' pos' sizes := by
  induction sizes generalizing pos pos' with
  | nil => rfl
  | cons size rest ih =>
    rw [List.sum_cons] at h
    have hfirst : m.bytes pos size = m'.bytes pos' size :=
      Mem.bytes_eq_bytes_iff.mpr fun i hi => h i (by omega)
    have hrest : Mem.SameBytes m (pos + size) m' (pos' + size) rest.sum := by
      intro i hi
      have hmoved := h (size + i) (by omega)
      rwa [← Nat.add_assoc, ← Nat.add_assoc] at hmoved
    rw [chunkData, chunkData, hfirst, ih hrest]

theorem storedSize_le {f : List UInt8 → ℤ} (hf : ∀ l, f l ≤ l.length) (chunk : List UInt8) :
    storedSize f chunk ≤ chunk.length := by
  have hle := hf chunk
  simp only [storedSize]
  split <;> omega

theorem storedSize_pos (f : List UInt8 → ℤ) {chunk : List UInt8} (h : 0 < chunk.length) :
    0 < storedSize f chunk := by
  simp only [storedSize]
  split <;> omega

/-- No list of chunks takes more than its bytes. -/
theorem sum_storedSize_le {f : List UInt8 → ℤ} (hf : ∀ l, f l ≤ l.length) (m : Mem) (pos : ℕ)
    (sizes : List ℕ) : ((chunkData m pos sizes).map (storedSize f)).sum ≤ sizes.sum := by
  induction sizes generalizing pos with
  | nil => simp [chunkData]
  | cons size rest ih =>
    have hfirst := storedSize_le hf (m.bytes pos size)
    have hrest := ih (pos + size)
    rw [Mem.length_bytes] at hfirst
    simp only [chunkData, List.map_cons, List.sum_cons]
    omega

/-- Chunks of joined contents. -/
theorem storedTotal_append (f : List UInt8 → ℤ) {a b : List UInt8} {xs ys : List ℕ}
    (hxs : xs.sum = a.length) :
    storedTotal f (a ++ b) (xs ++ ys) = storedTotal f a xs + storedTotal f b ys := by
  have hfirst : chunkData (Mem.ofList (a ++ b)) 0 xs = chunkData (Mem.ofList a) 0 xs := by
    apply chunkData_congr
    intro i hi
    exact List.getD_append a b 0 (0 + i) (by omega)
  have hrest : chunkData (Mem.ofList (a ++ b)) xs.sum ys = chunkData (Mem.ofList b) 0 ys := by
    apply chunkData_congr
    intro i hi
    refine (List.getD_append_right a b 0 (xs.sum + i) (by omega)).trans ?_
    rw [hxs, Nat.add_sub_cancel_left, Nat.zero_add]
    rfl
  rw [storedTotal, chunkData_append, Nat.zero_add, hfirst, hrest, List.map_append, List.sum_append]
  rfl

/-- Chunks that are not counted are missing in the sum. -/
theorem storedTotal_take_lt (f : List UInt8 → ℤ) (content : List UInt8) {sizes : List ℕ}
    (hpos : ∀ size ∈ sizes, 0 < size) {k : ℕ} (hk : k < sizes.length) :
    storedTotal f content (sizes.take k) < storedTotal f content sizes := by
  have hdrop : sizes.drop k = sizes[k] :: sizes.drop (k + 1) := List.drop_eq_getElem_cons hk
  have hmissing : 0 < storedSize f
      ((Mem.ofList content).bytes (0 + (sizes.take k).sum) sizes[k]) := by
    apply storedSize_pos
    rw [Mem.length_bytes]
    exact hpos _ (List.getElem_mem hk)
  have hall : storedTotal f content sizes =
      storedTotal f content (sizes.take k ++ sizes.drop k) := by
    rw [List.take_append_drop]
  rw [hall, storedTotal, storedTotal, chunkData_append, hdrop]
  simp only [chunkData, List.map_append, List.sum_append, List.map_cons, List.sum_cons]
  omega

section Stored

variable {σ : Type} {f : List UInt8 → ℤ} {compress : CompressFunc σ} {inbuf : Mem}
  {param1 param2 workmem : ℕ}

/-- One chunk: the size stored is that of its bytes. -/
theorem stored_step (hc : ReturnsOf f compress) (hf : ∀ l, f l ≤ l.length) {cap : ℕ}
    (hcap : cap < 2 ^ 64) {s : CompressState σ} {done : List ℕ} {part : ℕ}
    (h : Accounts cap done s ∧ s.sizes = (chunkData inbuf 0 done).map (storedSize f))
    (hfit : done.sum + part ≤ cap) :
    Ends (fun s' => Accounts cap (done ++ [part]) s' ∧
        s'.sizes = (chunkData inbuf 0 (done ++ [part])).map (storedSize f)) (fun _ => False)
      (compressStep compress inbuf param1 param2 workmem s part) := by
  obtain ⟨hacc, hsizes⟩ := h
  let chunk := inbuf.bytes done.sum part
  have hlen : chunk.length = part := Mem.length_bytes _ _ _
  have hinput : (compressArgs inbuf param1 param2 workmem s part).input = chunk := by
    change inbuf.bytes s.inpos part = inbuf.bytes done.sum part
    rw [hacc.inpos_eq]
  have hret : (compress (compressArgs inbuf param1 param2 workmem s part) s.world).ret =
      f chunk := by
    rw [hc, hinput]
  have hle : f chunk ≤ part := (hf chunk).trans_eq (by rw [hlen])
  have hsum : s.sizes.sum ≤ done.sum := hsizes ▸ sum_storedSize_le hf inbuf 0 done
  have hroom : s.outsize + s.sizes.sum = cap := hacc.room_eq
  have hcast : 0 < f chunk → toSize (f chunk) = (f chunk).toNat := fun hpos =>
    toSize_of_nonneg hpos.le (by omega)
  -- whichever way the chunk is stored, its size is that of its bytes
  have hstore : ∀ s' : CompressState σ, Accounts cap done s' → s'.sizes = s.sizes →
      s'.outsize = s.outsize → ∀ k, k = storedSize f chunk →
      Accounts cap (done ++ [part]) (s'.store part k) ∧
        (s'.store part k).sizes = (chunkData inbuf 0 (done ++ [part])).map (storedSize f) := by
    rintro s' hacc' hsizes' hout k rfl
    have hk := storedSize_le hf chunk
    refine ⟨hacc'.store hcap (by omega), ?_⟩
    rw [chunkData_append, List.map_append, Nat.zero_add, ← hsizes, ← hsizes']
    rfl
  refine ends_compressStep _ _ _ _ _ rfl ?raw ?coded ?abort
  case raw =>
    intro hraw _
    rw [hret] at hraw
    refine hstore _ ((hacc.called _ _ _).copyRaw _ _) rfl rfl part ?_
    simp only [storedSize]
    split <;> omega
  case coded =>
    intro hpos _
    rw [hret] at hpos
    refine hstore _ (hacc.called _ _ _) rfl rfl _ ?_
    rw [hret, hcast hpos, storedSize, if_neg (by omega)]
  case abort =>
    intro _ hlt
    omega

variable (param1 param2 workmem) in
/-- What the call returns. -/
theorem ends_lzbenchCompress_stored (hc : ReturnsOf f compress) (hf : ∀ l, f l ≤ l.length)
    {content : List UInt8} (hbytes : inbuf.bytes 0 content.length = content)
    {chunkSizes : List ℕ} (hsum : chunkSizes.sum = content.length) (comprSizes : List ℕ)
    (outbuf : Mem) {outsize : UInt64} (hroom : content.length ≤ outsize.toNat) (w : σ) :
    Ends (fun r => r.ret = toInt64 (storedTotal f content
          (countedChunks chunkSizes)))
      (fun e => e = Stop.lengthError ∧ chunkCount chunkSizes.length < 0)
      (lzbenchCompress compress inbuf param1 param2 workmem chunkSizes comprSizes outbuf
        outsize w) := by
  let counted := countedChunks chunkSizes
  have htake : counted.sum ≤ content.length :=
    ((List.take_sublist _ _).sum_le_sum fun _ _ => Nat.zero_le _).trans_eq hsum
  have hsame : chunkData inbuf 0 counted = chunkData (Mem.ofList content) 0 counted := by
    have hall := Mem.bytes_eq_bytes_iff.mp (hbytes.trans (Mem.bytes_ofList content).symm)
    exact chunkData_congr fun i hi => hall i (by omega)
  have hrun : Ends (fun s => Accounts outsize.toNat counted s ∧
      s.sizes = (chunkData inbuf 0 counted).map (storedSize f)) (fun _ => False)
      (counted.foldlM (compressStep compress inbuf param1 param2 workmem)
        (compressInit outbuf outsize w)) := by
    refine ends_foldlM (fun done s => Accounts outsize.toNat done s ∧
      s.sizes = (chunkData inbuf 0 done).map (storedSize f)) counted
      ⟨Accounts.init outbuf outsize w, rfl⟩ fun done part rest s hxs hs => ?_
    have hparts : counted.sum = done.sum + (part + rest.sum) := by
      rw [hxs, List.sum_append, List.sum_cons]
    exact stored_step hc hf outsize.toNat_lt hs (by omega)
  refine ends_lzbenchCompress _ _ _ _ _ _ hrun (fun s hs => ?_) fun _ h => h.elim
  obtain ⟨hacc, hsizes⟩ := hs
  change toInt64 s.sum = _
  rw [hacc.sum_eq, hsizes, hsame]
  rfl

end Stored

/-! ## Runs on files -/

/-- A run of `lzbench_test` on the contents of files of the given sizes, under a codec
with the result `f`, by any clock, on any buffers and with any other parameters. -/
structure FilesRun (f : List UInt8 → ℤ) (chunkSize : ℕ) (maxBlockSize : ℤ) (content : List UInt8) :
    Type 1 where
  σ : Type
  env : Env σ
  params : LzbenchParams
  desc : CompressorDesc σ
  compress : CompressFunc σ
  level : ℤ
  inbuf : Mem
  param1 : ℕ
  fuel : ℕ
  compbuf : Mem
  decomp : Mem
  world : σ
  chunkSize_eq : params.chunkSize = chunkSize
  maxBlockSize_eq : desc.maxBlockSize = maxBlockSize
  compress_eq : desc.compress = some compress
  returns : ReturnsOf f compress
  bytes_eq : inbuf.bytes 0 content.length = content

namespace FilesRun

variable {f : List UInt8 → ℤ} {chunkSize : ℕ} {maxBlockSize : ℤ} {content : List UInt8}

/-- What the run does, with the buffer that the drivers allocate. -/
def result (r : FilesRun f chunkSize maxBlockSize content) (fileSizes : List ℕ) :
    Except Fault (TestResult r.σ) :=
  lzbenchTest r.env r.params fileSizes r.desc r.level r.inbuf content.length
    (UInt64.ofNat (getCompressBound content.length)) r.param1 r.fuel r.compbuf r.decomp r.world

/-- The run throws. -/
def Throws (r : FilesRun f chunkSize maxBlockSize content) (fileSizes : List ℕ) : Prop :=
  ∃ entries, r.result fileSizes = .error ⟨.lengthError, entries⟩

/-- The run records a row with the compressed size `n`. -/
def Records (r : FilesRun f chunkSize maxBlockSize content) (fileSizes : List ℕ) (n : ℕ) : Prop :=
  ∃ res rep, r.result fileSizes = .ok res ∧ res.report = some rep ∧ rep.row.col4_comprsize = n

/-- The compression phase leaves the size of what is stored, or throws where the count of
the chunks is negative. -/
theorem compressPhase_stored (r : FilesRun f chunkSize maxBlockSize content)
    (hf : ∀ l, f l ≤ l.length) (hmax : content.length ≤ ptrdiffMax) {chunks : List ℕ}
    (hsum : chunks.sum = content.length) (workmem : ℕ) (compbuf : Mem) (w : r.σ) :
    Ends (fun s => s.complen = toInt64 (storedTotal f content
          (countedChunks chunks)))
      (fun e => e = .stop .lengthError → chunkCount chunks.length < 0)
      (compressPhase r.env r.params r.inbuf content.length r.param1
        (toSize r.desc.additionalParam) workmem chunks r.compress
        (UInt64.ofNat (getCompressBound content.length)) r.fuel
        (compressPhaseInit r.env compbuf w)) := by
  have hroom : content.length ≤ (UInt64.ofNat (getCompressBound content.length)).toNat := by
    rw [UInt64.toNat_ofNat_of_lt' (getCompressBound_lt _)]
    exact (Nat.le_add_right _ _).trans (le_getCompressBound (boundFits_of_le_ptrdiffMax hmax))
  have hcall := fun s : CompressPhase r.σ => ends_lzbenchCompress_stored r.param1
    (toSize r.desc.additionalParam) workmem r.returns hf r.bytes_eq hsum s.comprSizes s.compbuf
    hroom (r.env.getTime s.world).2
  refine ends_compressPhase (I := fun _ => True) (J := fun _ => True)
    (K := fun s => s.complen = toInt64 (storedTotal f content
      (countedChunks chunks)))
    nofun ?throw (fun _ _ => trivial) ?iter (fun _ _ _ => nofun) ?finish r.fuel trivial
  case throw => exact fun s e _ he _ => ((hcall s).error e he).2
  case iter => exact fun s c _ hc => (hcall s).ok c hc
  case finish => exact fun s hs => ⟨trivial, hs⟩

/-- A recorded size is that of the chunks that are counted. -/
theorem Records.eq_storedTotal {r : FilesRun f chunkSize maxBlockSize content}
    {fileSizes : List ℕ} {n : ℕ} (h : r.Records fileSizes n) (hf : ∀ l, f l ≤ l.length)
    (hmax : content.length ≤ ptrdiffMax) (hsum : fileSizes.sum = content.length)
    {chunks : List ℕ}
    (hchunks : splitFiles (effectiveChunkSize chunkSize content.length maxBlockSize) fileSizes =
      some chunks) :
    n = storedTotal f content (countedChunks chunks) := by
  obtain ⟨res, rep, hrun, hrep, hn⟩ := h
  have hchunksum : chunks.sum = content.length := (splitFiles_some hchunks).1.trans hsum
  obtain ⟨compress, decompress, chunks', workmem, buf, w, hc, -, hchunks', hrec⟩ :=
    lzbenchTest_recorded hrun hrep
  rw [r.chunkSize_eq, r.maxBlockSize_eq, hchunks, Option.some.injEq] at hchunks'
  subst hchunks'
  obtain rfl : r.compress = compress := Option.some.inj (r.compress_eq.symm.trans hc)
  have hle : storedTotal f content (countedChunks chunks) ≤ content.length :=
    (sum_storedSize_le hf _ _ _).trans
      (((List.take_sublist _ _).sum_le_sum fun _ _ => Nat.zero_le _).trans_eq hchunksum)
  have hcomplen := (r.compressPhase_stored hf hmax hchunksum workmem buf w).ok _ hrec.compression
  rw [← hn, hrec.row]
  change toSize rep.compression.complen = _
  rw [hcomplen, toSize_toInt64 (lt_of_le_of_lt hle (lt_of_le_ptrdiffMax hmax))]

/-- The decompression phase does not throw. -/
theorem decompressPhase_ne_lengthError {σ : Type} {env : Env σ} {params : LzbenchParams}
    {inbuf : Mem} {insize param1 param2 workmem : ℕ} {chunkSizes comprSizes : List ℕ}
    {decompress : CompressFunc σ} {compbuf : Mem} {fuel : ℕ} {s d : DecompressPhase σ} {e : Stop}
    (h : decompressPhase env params inbuf insize param1 param2 workmem chunkSizes decompress
      comprSizes compbuf fuel s = .error (e, d)) : e ≠ .lengthError := by
  have hrule : Ends (fun _ => True) (fun e => e.1 ≠ Stop.lengthError)
      (decompressPhase env params inbuf insize param1 param2 workmem chunkSizes decompress
        comprSizes compbuf fuel s) :=
    ends_decompressPhase (I := fun _ => True) (J := fun _ => True) (K := fun _ => True)
      (fun _ _ he _ => he) (fun _ _ => trivial) (fun _ _ => trivial)
      (fun _ _ _ _ => ⟨fun _ => trivial, trivial⟩) fuel trivial
  exact hrule.error _ h

/-- A run does not throw when the chunks can be counted. -/
theorem not_throws (r : FilesRun f chunkSize maxBlockSize content) {fileSizes : List ℕ}
    (hf : ∀ l, f l ≤ l.length) (hmax : content.length ≤ ptrdiffMax)
    (hsum : fileSizes.sum = content.length) {chunks : List ℕ}
    (hchunks : splitFiles (effectiveChunkSize chunkSize content.length maxBlockSize) fileSizes =
      some chunks) (hcount : 0 ≤ chunkCount chunks.length) : ¬ r.Throws fileSizes := by
  have hchunksum : chunks.sum = content.length := (splitFiles_some hchunks).1.trans hsum
  have hrule : Ends (fun _ => True) (fun e => e.stop ≠ Stop.lengthError) (r.result fileSizes) := by
    refine ends_lzbenchTest (fun _ _ => trivial) (fun _ _ _ _ _ _ _ _ _ _ _ _ => trivial)
      (by decide) ?compress ?decompress
    case compress =>
      rintro compress chunks' workmem buf w e hc hchunks' hphase rfl
      rw [r.chunkSize_eq, r.maxBlockSize_eq, hchunks, Option.some.injEq] at hchunks'
      subst hchunks'
      obtain rfl : r.compress = compress := Option.some.inj (r.compress_eq.symm.trans hc)
      have hneg := (r.compressPhase_stored hf hmax hchunksum workmem buf w).error _ hphase rfl
      omega
    case decompress => exact fun _ _ _ _ _ _ _ h => decompressPhase_ne_lengthError h
  rintro ⟨entries, hthrow⟩
  exact hrule.error _ hthrow rfl

/-- A clock that shows how often it was read. -/
def plainEnv : Env ℕ := ⟨fun w => (w, w + 1), id, 0⟩

/-- Parameters with which every loop is left after one iteration. -/
def plainParams (chunkSize : ℕ) : LzbenchParams :=
  { defaultParams with
    chunkSize := chunkSize
    compressOnly := true
    cIters := 0
    cmintime := 0
    cloopTime := 0 }

/-- A compressor that returns what it has to, and writes nothing. -/
def plainCompress (f : List UInt8 → ℤ) : CompressFunc ℕ := fun a w => ⟨f a.input, a.outbuf, w⟩

def plainDesc (f : List UInt8 → ℤ) (maxBlockSize : ℤ) : CompressorDesc ℕ where
  name := ""
  version := ""
  firstLevel := 0
  lastLevel := 0
  additionalParam := 0
  maxBlockSize := maxBlockSize
  compress := some (plainCompress f)
  decompress := some lzbenchMemcpy
  init := none
  deinit := none

/-- The run with these. -/
def plain (f : List UInt8 → ℤ) (chunkSize : ℕ) (maxBlockSize : ℤ) (content : List UInt8) :
    FilesRun f chunkSize maxBlockSize content where
  σ := ℕ
  env := plainEnv
  params := plainParams chunkSize
  desc := plainDesc f maxBlockSize
  compress := plainCompress f
  level := 0
  inbuf := Mem.ofList content
  param1 := 0
  fuel := 1
  compbuf := Mem.ofList []
  decomp := Mem.ofList []
  world := 0
  chunkSize_eq := rfl
  maxBlockSize_eq := rfl
  compress_eq := rfl
  returns := fun _ _ => rfl
  bytes_eq := Mem.bytes_ofList content

/-- The state in which the only call is made. -/
def plainStart : CompressPhase ℕ :=
  compressStart plainEnv (compressPhaseInit plainEnv (Mem.ofList []) 0)

section Phase

variable {inbuf : Mem} {insize : ℕ} {chunks : List ℕ} {comprsize : UInt64}

theorem compressPhase_plain_error {e : Stop}
    (h : lzbenchCompress (plainCompress f) inbuf 0 0 0 chunks plainStart.comprSizes
      plainStart.compbuf comprsize (plainEnv.getTime plainStart.world).2 = .error e) :
    compressPhase plainEnv (plainParams chunkSize) inbuf insize 0 0 0 chunks (plainCompress f)
      comprsize 1 (compressPhaseInit plainEnv (Mem.ofList []) 0) = .error (.stop e) := by
  have hiter : compressIter plainEnv inbuf 0 0 0 chunks (plainCompress f) comprsize plainStart =
      .error (.stop e) := by
    simp only [compressIter, h]
  refine doWhile_error ?_
  change (doWhile _ _ _ 1 plainStart >>= _) = _
  rw [doWhile_error hiter]
  rfl

/-- The loops are left, since the clock has advanced by then. -/
theorem compressPhase_plain_ok {r : CompressResult ℕ}
    (h : lzbenchCompress (plainCompress f) inbuf 0 0 0 chunks plainStart.comprSizes
      plainStart.compbuf comprsize (plainEnv.getTime plainStart.world).2 = .ok r)
    (hworld : r.world = 3) :
    ∃ c, compressPhase plainEnv (plainParams chunkSize) inbuf insize 0 0 0 chunks (plainCompress f)
      comprsize 1 (compressPhaseInit plainEnv (Mem.ofList []) 0) = .ok c := by
  let c := compressDone plainEnv plainStart r
  have hiter : compressIter plainEnv inbuf 0 0 0 chunks (plainCompress f) comprsize plainStart =
      .ok c := by
    simp only [compressIter, h]
    rfl
  have hfinish : compressFinish plainEnv (plainParams chunkSize) insize c =
      .ok { c with laps := c.laps.finish.count } := by
    rw [compressFinish]
    exact if_neg (Nat.not_lt_zero _)
  have henough : c.laps.finish.count.enough 0 0 = true := by
    simp only [c, compressDone, hworld]
    rfl
  refine ⟨{ c with laps := c.laps.finish.count }, doWhile_once ?_ ?_⟩
  · change (doWhile _ _ _ 1 plainStart >>= _) = _
    rw [doWhile_once hiter (decide_eq_false (Nat.not_lt_zero _))]
    exact hfinish
  · change (!c.laps.finish.count.enough 0 0) = false
    rw [henough]
    rfl

/-- The compressor leaves the clock alone. -/
theorem world_plain {outbuf : Mem} {comprSizes : List ℕ} {w : ℕ} {r : CompressResult ℕ}
    (h : lzbenchCompress (plainCompress f) inbuf 0 0 0 chunks comprSizes outbuf comprsize w =
      .ok r) : r.world = w := by
  have hstep : ∀ s : CompressState ℕ, s.world = w → ∀ part,
      Ends (fun s => s.world = w) (fun s => s.world = w)
        (compressStep (plainCompress f) inbuf 0 0 0 s part) := fun s hs part =>
    ends_compressStep _ _ _ _ _ rfl (fun _ _ => hs) (fun _ _ => hs) fun _ _ => hs
  exact (ends_lzbenchCompress _ _ _ _ _ _
    (ends_foldlM (fun _ s => s.world = w) _ rfl fun _ part _ s _ hs => hstep s hs part)
    (fun s hs => hs) (fun s hs => hs) (P := fun r => r.world = w)).ok r h

end Phase

section Plain

variable {fileSizes chunks : List ℕ}
  (hchunks : splitFiles (effectiveChunkSize chunkSize content.length maxBlockSize) fileSizes =
    some chunks)

include hchunks

theorem plain_result :
    (plain f chunkSize maxBlockSize content).result fileSizes =
      measure plainEnv (plainParams chunkSize) (plainDesc f maxBlockSize) 0 (plainCompress f)
        lzbenchMemcpy (Mem.ofList content) content.length
        (UInt64.ofNat (getCompressBound content.length)) 0 0 0 chunks 1 (Mem.ofList [])
        (Mem.ofList []) 0 := by
  have hsplit : splitFiles (effectiveChunkSize (plainParams chunkSize).chunkSize content.length
      (plainDesc f maxBlockSize).maxBlockSize) fileSizes = some chunks := hchunks
  change lzbenchTest plainEnv (plainParams chunkSize) fileSizes (plainDesc f maxBlockSize) 0
    (Mem.ofList content) content.length _ 0 1 (Mem.ofList []) (Mem.ofList []) 0 = _
  rw [lzbenchTest, hsplit]
  rfl

/-- It throws when the chunks cannot be counted. -/
theorem plain_throws (hcount : chunkCount chunks.length < 0) :
    (plain f chunkSize maxBlockSize content).Throws fileSizes := by
  have hthrow : ∀ comprsize, lzbenchCompress (plainCompress f) (Mem.ofList content) 0 0 0 chunks
      plainStart.comprSizes plainStart.compbuf comprsize (plainEnv.getTime plainStart.world).2 =
        .error .lengthError := fun _ => if_pos hcount
  refine ⟨[], ?_⟩
  rw [plain_result hchunks, measure, compressPhase_plain_error (hthrow _)]
  rfl

/-- It records a row when they can. -/
theorem plain_records (hcount : 0 ≤ chunkCount chunks.length) :
    ∃ n, (plain f chunkSize maxBlockSize content).Records fileSizes n := by
  have hreturns : ∀ comprsize, ∃ r, lzbenchCompress (plainCompress f) (Mem.ofList content) 0 0 0
      chunks plainStart.comprSizes plainStart.compbuf comprsize
        (plainEnv.getTime plainStart.world).2 = .ok r := fun _ => ⟨_, if_neg (by omega)⟩
  obtain ⟨r, hr⟩ := hreturns (UInt64.ofNat (getCompressBound content.length))
  obtain ⟨c, hc⟩ : ∃ c, compressPhase plainEnv (plainParams chunkSize) (Mem.ofList content)
      content.length 0 0 0 chunks (plainCompress f)
      (UInt64.ofNat (getCompressBound content.length)) 1
      (compressPhaseInit plainEnv (Mem.ofList []) 0) = .ok c :=
    compressPhase_plain_ok hr (world_plain hr)
  obtain ⟨res, rep, hrun, hrep⟩ : ∃ res rep,
      (plain f chunkSize maxBlockSize content).result fileSizes = .ok res ∧
        res.report = some rep := by
    rw [plain_result hchunks, measure, hc]
    exact ⟨_, _, rfl, rfl⟩
  exact ⟨_, res, rep, hrun, hrep, rfl⟩

end Plain

end FilesRun

/-! ## Joined and separate runs -/

/-- No run throws, and the size recorded for the joined files is the sum of the sizes
recorded for each of them, whatever runs record them. -/
def JoinAgrees (f : List UInt8 → ℤ) (chunkSize : ℕ) (maxBlockSize : ℤ)
    (files : List (List UInt8)) : Prop :=
  (∀ r : FilesRun f chunkSize maxBlockSize files.flatten, ¬ r.Throws (files.map List.length)) ∧
    (∀ file ∈ files, ∀ r : FilesRun f chunkSize maxBlockSize file, ¬ r.Throws [file.length]) ∧
    ∀ (r : FilesRun f chunkSize maxBlockSize files.flatten) (n : ℕ) (ns : List ℕ),
      r.Records (files.map List.length) n →
      List.Forall₂ (fun file k => ∃ r : FilesRun f chunkSize maxBlockSize file,
        r.Records [file.length] k) files ns → n = ns.sum

/-- The numbers of chunks are no negative `int`s, and what is stored for the chunks
counted of the joined files is what is stored for those counted of each file. -/
structure CountsAgree (f : List UInt8 → ℤ) (chunkSize : ℕ) (maxBlockSize : ℤ)
    (files : List (List UInt8)) : Prop where
  joined_nonneg : 0 ≤ chunkCount
    (joinedChunks chunkSize maxBlockSize (files.map List.length)).length
  file_nonneg : ∀ file ∈ files, 0 ≤ chunkCount
    (fileChunks chunkSize maxBlockSize file.length).length
  total_eq : storedTotal f files.flatten
      (countedChunks (joinedChunks chunkSize maxBlockSize (files.map List.length))) =
    (files.map fun file => storedTotal f file
      (countedChunks (fileChunks chunkSize maxBlockSize file.length))).sum

section Join

variable {f : List UInt8 → ℤ} {chunkSize : ℕ} {maxBlockSize : ℤ} {files : List (List UInt8)}

/-- The sizes recorded for the files are those of their counted chunks. -/
theorem records_separate (hf : ∀ l, f l ≤ l.length) (hchunk : 0 < chunkSize)
    (hblock : maxBlockSize ≠ 0 → 0 < toSize maxBlockSize) {ns : List ℕ}
    (hmax : ∀ file ∈ files, file.length ≤ ptrdiffMax)
    (h : List.Forall₂ (fun file k => ∃ r : FilesRun f chunkSize maxBlockSize file,
      r.Records [file.length] k) files ns) :
    (files.map fun file => storedTotal f file
      (countedChunks (fileChunks chunkSize maxBlockSize file.length))).sum = ns.sum := by
  induction h with
  | nil => rfl
  | @cons file k files ns hrec _ ih =>
    obtain ⟨r, hr⟩ := hrec
    have hk := hr.eq_storedTotal hf (hmax file List.mem_cons_self) List.sum_singleton
      (splitFiles_file hchunk hblock file.length)
    rw [List.map_cons, List.sum_cons, List.sum_cons, ← hk,
      ih fun file hmem => hmax file (List.mem_cons_of_mem _ hmem)]

theorem joinAgrees_iff_countsAgree (hf : ∀ l, f l ≤ l.length) (hchunk : 0 < chunkSize)
    (hblock : maxBlockSize ≠ 0 → 0 < toSize maxBlockSize)
    (hmax : files.flatten.length ≤ ptrdiffMax) :
    JoinAgrees f chunkSize maxBlockSize files ↔ CountsAgree f chunkSize maxBlockSize files := by
  have hjoinedsum : (files.map List.length).sum = files.flatten.length :=
    List.length_flatten.symm
  have hjoined : splitFiles (effectiveChunkSize chunkSize files.flatten.length maxBlockSize)
      (files.map List.length) =
        some (joinedChunks chunkSize maxBlockSize (files.map List.length)) := by
    rw [joinedChunks_eq hchunk hblock, ← splitFiles_joined hchunk hblock, hjoinedsum]
  have hfile : ∀ file : List UInt8,
      splitFiles (effectiveChunkSize chunkSize file.length maxBlockSize) [file.length] =
        some (fileChunks chunkSize maxBlockSize file.length) := fun file =>
    splitFiles_file hchunk hblock file.length
  have hfilemax : ∀ file ∈ files, file.length ≤ ptrdiffMax := fun file hmem =>
    (hjoinedsum ▸ List.single_le_sum (fun _ _ => Nat.zero_le _) file.length
      (List.mem_map_of_mem hmem)).trans hmax
  have hfilesum : ∀ file : List UInt8, [file.length].sum = file.length := fun _ =>
    List.sum_singleton
  constructor
  · rintro ⟨hthrow, hthrow', hsum⟩
    have hcount : 0 ≤ chunkCount
        (joinedChunks chunkSize maxBlockSize (files.map List.length)).length :=
      not_lt.mp fun hneg => hthrow _ (FilesRun.plain_throws hjoined hneg)
    have hcount' : ∀ file ∈ files, 0 ≤ chunkCount
        (fileChunks chunkSize maxBlockSize file.length).length := fun file hmem =>
      not_lt.mp fun hneg => hthrow' file hmem _ (FilesRun.plain_throws (hfile file) hneg)
    refine ⟨hcount, hcount', ?_⟩
    obtain ⟨n, hn⟩ := FilesRun.plain_records (f := f) hjoined hcount
    have hn' := hn.eq_storedTotal hf hmax hjoinedsum hjoined
    rw [← hn']
    refine hsum _ n _ hn ?_
    rw [List.forall₂_map_right_iff, List.forall₂_same]
    intro file hmem
    obtain ⟨k, hk⟩ := FilesRun.plain_records (f := f) (hfile file) (hcount' file hmem)
    have hk' := hk.eq_storedTotal hf (hfilemax file hmem) (hfilesum file) (hfile file)
    exact ⟨_, hk' ▸ hk⟩
  · intro h
    refine ⟨fun r => r.not_throws hf hmax hjoinedsum hjoined h.joined_nonneg,
      fun file hmem r => r.not_throws hf (hfilemax file hmem) (hfilesum file) (hfile file)
        (h.file_nonneg file hmem), fun r n ns hn hns => ?_⟩
    rw [hn.eq_storedTotal hf hmax hjoinedsum hjoined, h.total_eq]
    exact records_separate hf hchunk hblock hfilemax hns

/-- All chunks of the joined files take what the chunks of each file take. -/
theorem storedTotal_joined (hchunk : 0 < chunkSize)
    (hblock : maxBlockSize ≠ 0 → 0 < toSize maxBlockSize) (files : List (List UInt8)) :
    storedTotal f files.flatten
        ((files.map List.length).flatMap (fileChunks chunkSize maxBlockSize)) =
      (files.map fun file => storedTotal f file
        (fileChunks chunkSize maxBlockSize file.length)).sum := by
  induction files with
  | nil => rfl
  | cons file files ih =>
    have hsum : (fileChunks chunkSize maxBlockSize file.length).sum = file.length :=
      (splitFiles_some (splitFiles_file hchunk hblock file.length)).1.trans List.sum_singleton
    rw [List.flatten_cons, List.map_cons, List.flatMap_cons, storedTotal_append f hsum, ih,
      List.map_cons, List.sum_cons]

/-- When each file alone can be counted, the counts agree as long as the joined files can
be counted. -/
theorem countsAgree_iff (f : List UInt8 → ℤ) (hchunk : 0 < chunkSize)
    (hblock : maxBlockSize ≠ 0 → 0 < toSize maxBlockSize)
    (hfiles : ∀ file ∈ files, (fileChunks chunkSize maxBlockSize file.length).length < 2 ^ 31) :
    CountsAgree f chunkSize maxBlockSize files ↔
      (joinedChunks chunkSize maxBlockSize (files.map List.length)).length < 2 ^ 31 := by
  have hcounted : ∀ {chunks : List ℕ}, chunks.length < 2 ^ 31 → countedChunks chunks = chunks :=
    fun h => take_chunkCount h
  have hseparate : (files.map fun file => storedTotal f file
        (countedChunks (fileChunks chunkSize maxBlockSize file.length))).sum =
      storedTotal f files.flatten
        (joinedChunks chunkSize maxBlockSize (files.map List.length)) := by
    rw [joinedChunks_eq hchunk hblock, storedTotal_joined hchunk hblock]
    refine congrArg List.sum (List.map_congr_left fun file hmem => ?_)
    rw [hcounted (hfiles file hmem)]
  constructor
  · intro h
    by_contra hlong
    have hpos : ∀ size ∈ joinedChunks chunkSize maxBlockSize (files.map List.length), 0 < size := by
      intro size hsize
      rw [joinedChunks_eq hchunk hblock] at hsize
      exact ((splitFiles_some (splitFiles_joined hchunk hblock _)).2 size hsize).1
    have hlt := storedTotal_take_lt f files.flatten hpos (chunkCount_lt_of_ge (not_lt.mp hlong))
    rw [← hseparate] at hlt
    exact hlt.ne h.total_eq
  · intro hshort
    refine ⟨?_, fun file hmem => ?_, ?_⟩
    · rw [chunkCount_of_lt hshort]
      omega
    · rw [chunkCount_of_lt (hfiles file hmem)]
      omega
    · rw [hseparate, hcounted hshort]

/-- The joined files have all chunks of each file. -/
theorem length_fileChunks_le (hchunk : 0 < chunkSize)
    (hblock : maxBlockSize ≠ 0 → 0 < toSize maxBlockSize) {file : List UInt8}
    (hmem : file ∈ files) :
    (fileChunks chunkSize maxBlockSize file.length).length ≤
      (joinedChunks chunkSize maxBlockSize (files.map List.length)).length := by
  rw [joinedChunks_eq hchunk hblock, List.length_flatMap, List.map_map]
  exact List.single_le_sum (fun _ _ => Nat.zero_le _) _ (List.mem_map_of_mem hmem)

/-- The cap of a block, where there is one, is positive. -/
theorem toSize_pos_of_isInt (hblock : IsInt maxBlockSize) :
    maxBlockSize ≠ 0 → 0 < toSize maxBlockSize := by
  obtain ⟨hlow, hhigh⟩ := hblock
  intro hne
  simp only [toSize]
  omega

/-- Joined files are compressed as each of them alone, as far as the chunks of all of
them can be counted in an `int`.  That is exact when the chunks of each file alone can
be counted; in general the counts have to agree. -/
theorem joinAgrees_iff (hf : ∀ l, f l ≤ l.length) (hchunk : 0 < chunkSize)
    (hblock : IsInt maxBlockSize) (hmax : files.flatten.length ≤ ptrdiffMax) :
    ((joinedChunks chunkSize maxBlockSize (files.map List.length)).length < 2 ^ 31 →
        JoinAgrees f chunkSize maxBlockSize files) ∧
      ((∀ file ∈ files, (fileChunks chunkSize maxBlockSize file.length).length < 2 ^ 31) →
        JoinAgrees f chunkSize maxBlockSize files →
          (joinedChunks chunkSize maxBlockSize (files.map List.length)).length < 2 ^ 31) ∧
      (JoinAgrees f chunkSize maxBlockSize files ↔ CountsAgree f chunkSize maxBlockSize files) := by
  have hpos := toSize_pos_of_isInt hblock
  have hiff : JoinAgrees f chunkSize maxBlockSize files ↔
      CountsAgree f chunkSize maxBlockSize files :=
    joinAgrees_iff_countsAgree hf hchunk hpos hmax
  refine ⟨fun hshort => hiff.mpr ((countsAgree_iff f hchunk hpos ?_).mpr hshort),
    fun hfiles h => (countsAgree_iff f hchunk hpos hfiles).mp (hiff.mp h), hiff⟩
  exact fun file hmem => (length_fileChunks_le hchunk hpos hmem).trans_lt hshort

end Join

/-- Three files, one of them empty, under a codec that stores one byte for anything
longer. -/
theorem joinAgrees_three :
    JoinAgrees (fun l => if 1 < l.length then 1 else 0) 2 0 [[7, 7, 7], [], [8]] := by
  refine (joinAgrees_iff (fun l => ?_) (by decide) ⟨by decide, by decide⟩ (by decide)).1 (by decide)
  split <;> omega

/-- Two files of a tebibyte in blocks of a kibibyte have more blocks than an `int`
counts. -/
theorem joinedChunks_overflow {file : List UInt8} (hlength : file.length = 2 ^ 40) :
    (joinedChunks 1024 0 ([file, file].map List.length)).length = 2 ^ 31 := by
  have hchunk : 0 < 1024 := by decide
  have hblock : (0 : ℤ) ≠ 0 → 0 < toSize 0 := fun h => absurd rfl h
  have hfile : (fileChunks 1024 0 file.length).length = 2 ^ 30 := by
    have hcap : effectiveChunkSize 1024 (2 ^ 40) 0 = 1024 := by decide
    have hsplit := splitFile_fileChunks hchunk hblock file.length
    rw [hlength, hcap] at hsplit
    rw [hlength, length_splitFile hchunk hsplit]
    norm_num
  rw [joinedChunks_eq hchunk hblock, List.length_flatMap]
  simp only [List.map_cons, List.map_nil, List.sum_cons, List.sum_nil, hfile]
  norm_num

/-- Each of the two files is benchmarked alone, but the run on the joined files throws. -/
theorem join_overflows :
    ¬ JoinAgrees (fun _ => 0) 1024 0 [List.replicate (2 ^ 40) 0, List.replicate (2 ^ 40) 0] := by
  have hfalse : ∀ file : List UInt8, file.length = 2 ^ 40 →
      ¬ JoinAgrees (fun _ => 0) 1024 0 [file, file] := by
    intro file hlength h
    have hmax : [file, file].flatten.length ≤ ptrdiffMax := by
      simp only [List.flatten_cons, List.flatten_nil, List.length_append, List.length_nil, hlength]
      decide
    have hcount := ((joinAgrees_iff_countsAgree (fun _ => Int.natCast_nonneg _) (by decide)
      (fun h => absurd rfl h) hmax).mp h).joined_nonneg
    rw [joinedChunks_overflow hlength] at hcount
    exact absurd hcount (by decide)
  exact hfalse _ List.length_replicate

end Lzbench
