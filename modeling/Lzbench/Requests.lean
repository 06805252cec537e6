import Lzbench.Options
import Lzbench.Parts

/-!
# What is asked of a file

The buffers of a file are made for its size, or for the memory limit where that is less.  Only
then does `-R` choose what to read: a chunk at random, or the whole file where a chunk is no
shorter.  So the request may exceed the buffer, and a chunk of no bytes divides by zero.

## Main definitions

* `bufferSize` — the bytes for which the buffers are made.
* `openFile` — a file up to the first read.
* `PartReached` — the states of the loop over the parts.
* `WithinBuffers` — what is asked for and handed on fits the buffers.
* `withinBuffers_iff` — when it does.
-/

namespace Lzbench

open Imperative

variable {σ : Type}

section Run

variable (host : Host σ) (fuel : ℕ) (wrappers : Wrappers σ) (encoderList : Option String)

/-! ## The loop over the parts -/

/-- The variables of the loop over the parts. -/
structure PartState (σ : Type) where
  i : ℤ
  insize : ℕ
  inbuf : Mem
  bench : Bench σ

/-- The body of the loop. -/
def partStep (file size comprsize : ℕ) (filename : Text) (p : PartState σ) :
    Except (Halt σ) (PartState σ) := do
  let s ← benchEncoders host fuel wrappers encoderList ⟨[p.insize], p.inbuf, p.insize⟩ comprsize
    { p.bench with
      params := { p.bench.params with inFilename := partName filename p.i } }
  let r ← halted s.tests (freadInto host file p.insize size 0 p.inbuf s.world)
  .ok ⟨toInt32 (p.i + 1), r.1, r.2.1, { s with world := r.2.2 }⟩

/-- The loop makes its body's steps as long as a part is not empty. -/
theorem benchParts_step (file size comprsize : ℕ) (filename : Text) (rounds : ℕ)
    (p : PartState σ) :
    benchParts host fuel wrappers encoderList file size comprsize filename (rounds + 1) p.i
        p.insize p.inbuf p.bench =
      if p.insize > 0 then
        (partStep host fuel wrappers encoderList file size comprsize filename p).bind fun q =>
          benchParts host fuel wrappers encoderList file size comprsize filename rounds q.i q.insize
            q.inbuf q.bench
      else .ok p.bench := by
  rw [benchParts, partStep]
  split
  · simp only [bind, Except.bind]
    split
    · rfl
    · split <;> rfl
  · rfl

/-- The states that the loop comes to. -/
inductive PartReached (file size comprsize : ℕ) (filename : Text) (start : PartState σ) :
    PartState σ → Prop
  | start : PartReached file size comprsize filename start start
  | step {p q : PartState σ} : PartReached file size comprsize filename start p →
    p.insize > 0 →
    partStep host fuel wrappers encoderList file size comprsize filename p = .ok q →
    PartReached file size comprsize filename start q

theorem halted_freadInto_le {tests : List (TestRun σ)} {file n size pos : ℕ} {m : Mem} {w : σ}
    {r : ℕ × Mem × σ} (h : halted tests (freadInto host file n size pos m w) = .ok r) :
    r.1 ≤ n := by
  cases hread : freadInto host file n size pos m w with
  | error e =>
    rw [hread] at h
    cases h
  | ok r' =>
    rw [hread] at h
    cases h
    exact freadInto_le hread

/-- A part is no longer than the one before. -/
theorem PartReached.insize_le {file size comprsize : ℕ} {filename : Text}
    {start p : PartState σ}
    (h : PartReached host fuel wrappers encoderList file size comprsize filename start p) :
    p.insize ≤ start.insize := by
  induction h with
  | start => exact le_rfl
  | step _ _ hstep ih =>
    simp only [partStep] at hstep
    obtain ⟨t, -, hstep⟩ := bind_eq_ok.mp hstep
    obtain ⟨r, hread, hstep⟩ := bind_eq_ok.mp hstep
    cases hstep
    exact (halted_freadInto_le host hread).trans ih

/-! ## What is asked for -/

variable (first : Bool) (file realInsize : ℕ) (inbuf : Mem) (s : Bench σ)

/-- The first request, a position and a number of bytes, and the world when it is made. -/
def firstRequest : Except Stop ((ℕ × ℕ) × σ) :=
  readRequest host s.params file realInsize (bufferSize s.params realInsize) s.world

/-- The bytes that the first read leaves in the buffer. -/
def FirstRead (read : ℕ × Mem × σ) : Prop :=
  ∃ request, firstRequest host file realInsize s = .ok request ∧
    freadInto host file request.1.2 (addSize (bufferSize s.params realInsize) padSize) 0 inbuf
      request.2 = .ok read

/-- The sizes of what is handed to the tests of a file.  Behind a part, the next read asks for as
many bytes. -/
inductive Handed : ℕ → Prop
  | first {read : ℕ × Mem × σ} : FirstRead host file realInsize inbuf s read → Handed read.1
  | part {read : ℕ × Mem × σ} {request : (ℕ × ℕ) × σ} {t : Bench σ} {p : PartState σ} :
    firstRequest host file realInsize s = .ok request →
    FirstRead host file realInsize inbuf s read →
    benchBaseline host fuel wrappers first ⟨[read.1], read.2.1, read.1⟩
      { s with printed := s.printed ++ requestLines s.params request.1, world := read.2.2 } =
        .ok t →
    t.params.memLimit ≠ 0 ∧ realInsize > t.params.memLimit →
    PartReached host fuel wrappers encoderList file
      (addSize (bufferSize s.params realInsize) padSize)
      (getCompressBound (bufferSize s.params realInsize)) t.params.inFilename
      ⟨1, read.1, read.2.1, t⟩ p →
    Handed p.insize

/-- Nothing is divided by zero, the bytes asked for at random are in the file, no more bytes are
asked for than the buffer was made for, and what the tests are handed fits the buffers for the
compressed and the decompressed bytes. -/
structure WithinBuffers : Prop where
  divides : ∃ request, firstRequest host file realInsize s = .ok request
  in_file : ∀ request, firstRequest host file realInsize s = .ok request →
    s.params.randomRead = true → request.1.1 + request.1.2 ≤ realInsize
  in_buffer : ∀ request, firstRequest host file realInsize s = .ok request →
    request.1.2 ≤ bufferSize s.params realInsize
  handed : ∀ n, Handed host fuel wrappers encoderList first file realInsize inbuf s n →
    n ≤ bufferSize s.params realInsize ∧
      getCompressBound n ≤ getCompressBound (bufferSize s.params realInsize) ∧
      n + padSize ≤ addSize (bufferSize s.params realInsize) padSize

end Run

/-- With `-R` a chunk has some bytes, unless the file has none, and no more than the memory limit
where the file is beyond it. -/
def RequestFits (params : LzbenchParams) (realInsize : ℕ) : Prop :=
  params.randomRead = true → (params.chunkSize = 0 → realInsize = 0) ∧
    (params.memLimit ≠ 0 → params.memLimit < realInsize → params.chunkSize ≤ params.memLimit)

instance (params : LzbenchParams) (realInsize : ℕ) : Decidable (RequestFits params realInsize) :=
  inferInstanceAs (Decidable (_ → _ ∧ _))

section Fits

variable {host : Host σ} {fuel : ℕ} {wrappers : Wrappers σ} {encoderList : Option String}
  {first : Bool} {file realInsize : ℕ} {inbuf : Mem} {s : Bench σ}

/-- Without `-R` the buffer is filled. -/
theorem firstRequest_sequential (h : s.params.randomRead = false) :
    firstRequest host file realInsize s = .ok ((0, bufferSize s.params realInsize), s.world) := by
  simp [firstRequest, readRequest, h]

/-- With `-R` a file that is no longer than a chunk is read whole. -/
theorem firstRequest_whole (h : s.params.randomRead = true)
    (hle : realInsize ≤ s.params.chunkSize) :
    firstRequest host file realInsize s = .ok ((0, realInsize), s.world) := by
  simp [firstRequest, readRequest, h, hle]

/-- A longer one is cut into chunks, of which one is read. -/
theorem firstRequest_chunk (h : s.params.randomRead = true) (hpos : 0 < s.params.chunkSize)
    (hlt : s.params.chunkSize < realInsize) :
    ∃ pos w, firstRequest host file realInsize s = .ok ((pos, s.params.chunkSize), w) ∧
      pos + s.params.chunkSize ≤ realInsize := by
  refine ⟨_, _, by simp [firstRequest, readRequest, h, hlt, hpos.ne']; exact ⟨rfl, rfl⟩, ?_⟩
  have hchunks : 0 < realInsize / s.params.chunkSize := Nat.div_pos hlt.le hpos
  have hchunk := Nat.mod_lt (host.rand s.world).1 hchunks
  calc (host.rand s.world).1 % (realInsize / s.params.chunkSize) * s.params.chunkSize +
        s.params.chunkSize
      = ((host.rand s.world).1 % (realInsize / s.params.chunkSize) + 1) * s.params.chunkSize := by
        rw [Nat.add_mul, Nat.one_mul]
    _ ≤ realInsize / s.params.chunkSize * s.params.chunkSize := Nat.mul_le_mul_right _ hchunk
    _ ≤ realInsize := Nat.div_mul_le_self _ _

/-- Nothing longer than the first request is handed on. -/
theorem Handed.le_request {n : ℕ}
    (h : Handed host fuel wrappers encoderList first file realInsize inbuf s n) :
    ∃ request, firstRequest host file realInsize s = .ok request ∧ n ≤ request.1.2 := by
  cases h with
  | first hread =>
    obtain ⟨request, hrequest, hread⟩ := hread
    exact ⟨request, hrequest, freadInto_le hread⟩
  | part _ hread _ _ hparts =>
    obtain ⟨request, hrequest, hread⟩ := hread
    exact ⟨request, hrequest, hparts.insize_le.trans (freadInto_le hread)⟩

/-- What fits the buffer for the input fits the other two. -/
theorem fits_of_le {n size : ℕ} (hfits : BoundFits size) (h : n ≤ size) :
    n ≤ size ∧ getCompressBound n ≤ getCompressBound size ∧ n + padSize ≤ addSize size padSize := by
  refine ⟨h, ?_, ?_⟩
  · rw [getCompressBound_of_fits hfits, getCompressBound_of_fits (hfits.mono h)]
    omega
  · rw [addSize_of_lt (by simp only [BoundFits] at hfits; omega)]
    omega

/-- A first request that fits keeps the whole file within the buffers. -/
theorem withinBuffers_of_request (hfits : BoundFits realInsize) {request : (ℕ × ℕ) × σ}
    (hrequest : firstRequest host file realInsize s = .ok request)
    (hfile : s.params.randomRead = true → request.1.1 + request.1.2 ≤ realInsize)
    (hbuffer : request.1.2 ≤ bufferSize s.params realInsize) :
    WithinBuffers host fuel wrappers encoderList first file realInsize inbuf s where
  divides := ⟨request, hrequest⟩
  in_file r hr := by
    obtain rfl := Except.ok.inj (hrequest.symm.trans hr)
    exact hfile
  in_buffer r hr := by
    obtain rfl := Except.ok.inj (hrequest.symm.trans hr)
    exact hbuffer
  handed n hn := by
    obtain ⟨r, hr, hle⟩ := hn.le_request
    obtain rfl := Except.ok.inj (hrequest.symm.trans hr)
    exact fits_of_le (hfits.mono (bufferSize_le _ _)) (hle.trans hbuffer)

/-- What was asked for can be told from the settings. -/
theorem requestFits_of_within
    (h : WithinBuffers host fuel wrappers encoderList first file realInsize inbuf s) :
    RequestFits s.params realInsize := by
  intro hrandom
  constructor
  · intro hzero
    by_contra hne
    -- the number of chunks is a quotient by zero
    obtain ⟨request, hrequest⟩ := h.divides
    have hpos : 0 < realInsize := Nat.pos_of_ne_zero hne
    simp [firstRequest, readRequest, hrandom, hzero, hpos] at hrequest
  · intro hlimit hlt
    have hsize : bufferSize s.params realInsize = s.params.memLimit := if_pos ⟨hlimit, hlt⟩
    rcases Nat.lt_or_ge s.params.chunkSize realInsize with hchunk | hchunk
    · rcases Nat.eq_zero_or_pos s.params.chunkSize with hzero | hpos
      · omega
      · obtain ⟨pos, w, hrequest, -⟩ :=
          @firstRequest_chunk _ host file _ s hrandom hpos hchunk
        exact (h.in_buffer _ hrequest).trans hsize.le
    · have hle := (h.in_buffer _ (firstRequest_whole hrandom hchunk)).trans hsize.le
      simp only at hle
      omega

theorem within_of_requestFits (hfits : BoundFits realInsize)
    (h : RequestFits s.params realInsize) :
    WithinBuffers host fuel wrappers encoderList first file realInsize inbuf s := by
  cases hrandom : s.params.randomRead with
  | false =>
    refine withinBuffers_of_request hfits (firstRequest_sequential hrandom) ?_ le_rfl
    simp [hrandom]
  | true =>
    obtain ⟨hzero, hlimit⟩ := h hrandom
    rcases Nat.lt_or_ge s.params.chunkSize realInsize with hchunk | hchunk
    · have hpos : 0 < s.params.chunkSize :=
        Nat.pos_of_ne_zero fun h0 => absurd (hzero h0) (by omega)
      obtain ⟨pos, w, hrequest, hin⟩ := @firstRequest_chunk _ host file _ s hrandom hpos hchunk
      refine withinBuffers_of_request hfits hrequest (fun _ => hin) ?_
      rw [bufferSize]
      split
      · exact hlimit (by omega) (by omega)
      · exact hchunk.le
    · refine withinBuffers_of_request hfits (firstRequest_whole hrandom hchunk)
        (fun _ => (Nat.zero_add _).le) ?_
      rw [bufferSize]
      split
      · have hle := hlimit (by omega) (by omega)
        simp only
        omega
      · exact le_rfl

end Fits

/-- A file that was opened keeps the settings. -/
theorem openFile_params {host : Host σ} {name : String} {s t : Bench σ} {file realInsize : ℕ}
    {inbuf : Mem} (h : openFile host name s = .ok (.opened file realInsize inbuf t)) :
    t.params = { s.params with inFilename := fileName name } := by
  rcases openFile_cases host h with ⟨l, w, -, hr⟩ | ⟨w, hr⟩ | ⟨_, _, _, _, _, _, hr⟩
  · cases hr
  · cases hr
  · cases hr
    rfl

/-- A file stays within its buffers exactly where the request fits: always without `-R`, and
with it where a chunk has some bytes and no more than a memory limit that the file is beyond. -/
theorem withinBuffers_iff (host : Host σ) (fuel : ℕ) (wrappers : Wrappers σ)
    (encoderList : Option String) (first : Bool) {name : String} {s t : Bench σ}
    {file realInsize : ℕ} {inbuf : Mem}
    (hopen : openFile host name s = .ok (.opened file realInsize inbuf t))
    (hfits : BoundFits realInsize) :
    WithinBuffers host fuel wrappers encoderList first file realInsize inbuf t ↔
      RequestFits s.params realInsize := by
  have hparams := openFile_params hopen
  have hsame : RequestFits t.params realInsize ↔ RequestFits s.params realInsize := by
    rw [hparams]
    rfl
  exact ⟨fun h => hsame.mp (requestFits_of_within h),
    fun h => within_of_requestFits hfits (hsame.mpr h)⟩

/-- The driver before the first file. -/
def startBench (params : LzbenchParams) : Bench (ℕ × ℕ) :=
  ⟨params, fun _ => 0, fun _ => 0, [], (0, 0), []⟩

/-- Any file can be opened. -/
theorem openFile_contentHost (content : List UInt8) (hsize : content.length < 2 ^ 64)
    (name : String) (params : LzbenchParams) :
    ∃ inbuf t, openFile (contentHost content) name (startBench params) =
      .ok (.opened 0 content.length inbuf t) := by
  obtain ⟨inbuf, compbuf, decomp, w, -, hopen⟩ :=
    (serves_contentHost content name).openFile (startBench params) hsize
  exact ⟨inbuf, _, hopen⟩

/-- Five thousand bytes, of which a chunk at random is read, with a memory limit. -/
theorem withinBuffers_options :
    ∃ o inbuf t, readOptions defaultOptions ["-Rb1m1", "data"] = .ok (o, ["data"]) ∧
      openFile (contentHost (List.replicate 5000 0)) "data" (startBench o.params) =
        .ok (.opened 0 5000 inbuf t) ∧
      WithinBuffers (contentHost (List.replicate 5000 0)) 2 rawWrappers none true 0 5000 inbuf
        t := by
  have hoptions : ∃ o, readOptions defaultOptions ["-Rb1m1", "data"] = .ok (o, ["data"]) ∧
      RequestFits o.params 5000 := ⟨_, rfl, by decide⟩
  obtain ⟨o, hread, hrequest⟩ := hoptions
  obtain ⟨inbuf, t, hopen⟩ := openFile_contentHost (List.replicate 5000 0)
    (by rw [List.length_replicate]; decide) "data" o.params
  rw [List.length_replicate] at hopen
  exact ⟨o, inbuf, t, hread, hopen,
    (withinBuffers_iff _ _ _ _ _ hopen (by decide)).mpr hrequest⟩

/-- A chunk of no bytes, and a chunk beyond the memory limit. -/
theorem not_withinBuffers :
    (∃ o inbuf t, readOptions defaultOptions ["-b0", "-R", "data"] = .ok (o, ["data"]) ∧
      openFile (contentHost [1]) "data" (startBench o.params) = .ok (.opened 0 1 inbuf t) ∧
      firstRequest (contentHost [1]) 0 1 t = .error .undefined ∧
      ¬ WithinBuffers (contentHost [1]) 2 rawWrappers none true 0 1 inbuf t) ∧
    ∃ o inbuf t, readOptions defaultOptions ["-R", "-m1", "data"] = .ok (o, ["data"]) ∧
      openFile (contentHost (List.replicate 300000 0)) "data" (startBench o.params) =
        .ok (.opened 0 300000 inbuf t) ∧
      ¬ WithinBuffers (contentHost (List.replicate 300000 0)) 2 rawWrappers none true 0 300000
        inbuf t := by
  constructor
  · have hoptions : ∃ o, readOptions defaultOptions ["-b0", "-R", "data"] = .ok (o, ["data"]) ∧
        o.params.randomRead = true ∧ o.params.chunkSize = 0 := ⟨_, rfl, rfl, rfl⟩
    obtain ⟨o, hread, hrandom, hchunk⟩ := hoptions
    obtain ⟨inbuf, t, hopen⟩ := openFile_contentHost [1] (by decide) "data" o.params
    have hparams := openFile_params hopen
    have hrequest : firstRequest (contentHost [1]) 0 1 t = .error .undefined := by
      simp [firstRequest, readRequest, hparams, startBench, hrandom, hchunk]
    refine ⟨o, inbuf, t, hread, hopen, hrequest, fun h => ?_⟩
    obtain ⟨request, hok⟩ := h.divides
    rw [hrequest] at hok
    cases hok
  · have hoptions : ∃ o, readOptions defaultOptions ["-R", "-m1", "data"] = .ok (o, ["data"]) ∧
        ¬ RequestFits o.params 300000 := ⟨_, rfl, by decide⟩
    obtain ⟨o, hread, hrequest⟩ := hoptions
    obtain ⟨inbuf, t, hopen⟩ := openFile_contentHost (List.replicate 300000 0)
      (by rw [List.length_replicate]; decide) "data" o.params
    rw [List.length_replicate] at hopen
    have hparams := openFile_params hopen
    refine ⟨o, inbuf, t, hread, hopen, fun h => hrequest ?_⟩
    have hfits := requestFits_of_within h
    rw [hparams] at hfits
    exact hfits

end Lzbench
