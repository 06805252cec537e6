import Lzbench.Main

/-!
# What a run leaves alone

A run changes the world only through the clock and through the functions of its codec.  What
all of these keep is kept by the run, by the runs of an encoder list, and by the baseline.

## Main definitions

* `Env.Keeps`, `CompressorDesc.Keeps` — the clock and a codec keep a predicate of the world.
* `ends_lzbenchTest_keeps`, `ends_benchEncoders_keeps` — so do the runs.
* `lzbenchTest_ticking` — with a clock that goes on, a run whose codec leaves it alone ends.
-/

namespace Lzbench

open Imperative

variable {σ : Type} {P : σ → Prop}

/-- Reading the clock and sleeping keep `P`. -/
structure Env.Keeps (env : Env σ) (P : σ → Prop) : Prop where
  getTime : ∀ w, P w → P (env.getTime w).2
  uniSleep : ∀ w, P w → P (env.uniSleep w)

/-- A codec function keeps `P`. -/
def CodecKeeps (P : σ → Prop) (c : CompressFunc σ) : Prop := ∀ a w, P w → P (c a w).world

/-- The functions of a compressor keep `P`. -/
structure CompressorDesc.Keeps (desc : CompressorDesc σ) (P : σ → Prop) : Prop where
  compress : ∀ c, desc.compress = some c → CodecKeeps P c
  decompress : ∀ c, desc.decompress = some c → CodecKeeps P c
  init : ∀ f, desc.init = some f → ∀ n p q w, P w → P (f n p q w).2
  deinit : ∀ f, desc.deinit = some f → ∀ m w, P w → P (f m w)

section Loops

variable {c : CompressFunc σ} {inbuf : Mem} {param1 param2 workmem : ℕ}

theorem ends_lzbenchCompress_keeps (hc : CodecKeeps P c) {chunkSizes comprSizes : List ℕ}
    {outbuf : Mem} {outsize : UInt64} {w : σ} (hw : P w) :
    Ends (fun r => P r.world) (fun _ => True) (lzbenchCompress c inbuf param1 param2 workmem
      chunkSizes comprSizes outbuf outsize w) := by
  refine (ends_lzbenchCompress c inbuf param1 param2 workmem comprSizes
    (I := fun s : CompressState σ => P s.world) (J := fun s : CompressState σ => P s.world) ?_
    (fun _ hs => hs) (fun _ hs => hs)).mono (fun _ h => h) fun _ _ => trivial
  refine ends_foldlM (fun _ (s : CompressState σ) => P s.world) _ hw fun _ _ _ s _ hs => ?_
  exact ends_compressStep c inbuf param1 param2 workmem rfl (fun _ _ => hc _ _ hs)
    (fun _ _ => hc _ _ hs) fun _ _ => hc _ _ hs

theorem lzbenchDecompress_keeps (hc : CodecKeeps P c) (chunkSizes comprSizes : List ℕ)
    (outbuf : Mem) {w : σ} (hw : P w) :
    P (lzbenchDecompress c inbuf param1 param2 workmem chunkSizes comprSizes outbuf w).world := by
  refine lzbenchDecompress_of_run c inbuf param1 param2 workmem
    (I := fun s : DecompressState σ => P s.world)
    (J := fun e : ℤ × DecompressState σ => P e.2.world)
    (P := fun r : DecompressResult σ => P r.world) ?_ (fun _ hs => hs) fun _ hs => hs
  refine ends_foldlM (fun _ (s : DecompressState σ) => P s.world) _ hw
    fun _ entry _ s _ hs => ?_
  have hchunk : P (decompressChunk c inbuf param1 param2 workmem s entry.1 entry.2).world := by
    rw [decompressChunk]
    split
    · exact hs
    · exact hc _ _ hs
  exact ends_decompressStep c inbuf param1 param2 workmem rfl (fun _ => hchunk) fun _ => hchunk

end Loops

section Run

variable {env : Env σ} {params : LzbenchParams} {fileSizes : List ℕ} {desc : CompressorDesc σ}
  {level : ℤ} {inbuf : Mem} {insize : ℕ} {comprsize : UInt64} {param1 param2 workmem : ℕ}
  {fuel : ℕ} {chunkSizes : List ℕ}

/-- The compression phase, also where it ends early. -/
theorem ends_compressPhase_keeps {c : CompressFunc σ} (henv : env.Keeps P) (hc : CodecKeeps P c)
    {s : CompressPhase σ} (hs : P s.world) :
    Ends (fun s => P s.world) (fun e => ∀ s, e = .tooSlow s → P s.world)
      (compressPhase env params inbuf insize param1 param2 workmem chunkSizes c comprsize fuel
        s) := by
  refine ends_compressPhase (I := fun s => P s.world) (J := fun s => P s.world)
    (K := fun s => P s.world) (fun _ h => nomatch h) (fun _ _ _ _ _ h => nomatch h)
    (fun s hs => ?_) (fun s r hs hr => ?_) (fun s hs _ t ht => ?_) (fun s hs => ⟨hs, hs⟩) fuel hs
  · exact henv.getTime _ (henv.uniSleep _ hs)
  · have hr' := (ends_lzbenchCompress_keeps hc (henv.getTime _ (or_self_iff.mp hs))).ok r hr
    exact henv.getTime _ hr'
  · obtain rfl := CompressExit.tooSlow.inj ht
    exact hs

theorem ends_decompressPhase_keeps {c : CompressFunc σ} (henv : env.Keeps P)
    (hc : CodecKeeps P c) {comprSizes : List ℕ} {compbuf : Mem} {s : DecompressPhase σ}
    (hs : P s.world) :
    Ends (fun s => P s.world) (fun _ => True)
      (decompressPhase env params inbuf insize param1 param2 workmem chunkSizes c comprSizes
        compbuf fuel s) := by
  refine ends_decompressPhase (I := fun s => P s.world) (J := fun s => P s.world)
    (K := fun s => P s.world) (fun _ _ _ _ => trivial) (fun s hs => ?_) (fun s hs => ?_)
    (fun s s' hs hfin => ?_) fuel hs
  · exact henv.getTime _ (henv.uniSleep _ hs)
  · exact henv.getTime _ (lzbenchDecompress_keeps hc _ _ _ (henv.getTime _ (or_self_iff.mp hs)))
  · have hworld : P s'.world := (decompressFinish_ok hfin).2.2.1 ▸ hs
    exact ⟨fun _ => hworld, hworld⟩

theorem initWorkmem_keeps (hdesc : desc.Keeps P) (n p q : ℕ) {w : σ} (hw : P w) :
    P (initWorkmem desc n p q w).2 := by
  rw [initWorkmem]
  split
  · exact hw
  · exact hdesc.init _ ‹_› _ _ _ _ hw

theorem deinitWorkmem_keeps (hdesc : desc.Keeps P) (m : ℕ) {w : σ} (hw : P w) :
    P (deinitWorkmem desc m w) := by
  rw [deinitWorkmem]
  split
  · exact hw
  · exact hdesc.deinit _ ‹_› _ _ hw

theorem tryCspeed_keeps {c : CompressFunc σ} (henv : env.Keeps P) (hc : CodecKeeps P c)
    (chunkSize : ℕ) (compbuf : Mem) {w : σ} (hw : P w) :
    P (tryCspeed env params c chunkSize inbuf param1 param2 workmem compbuf w).2.2 := by
  rw [tryCspeed]
  split
  · exact henv.getTime _ (hc _ _ (henv.getTime _ hw))
  · exact hw

/-- The two phases and the way out of them: the workspace goes back, unless the compressor is
found too slow. -/
theorem ends_measure_world {compress decompress : CompressFunc σ} (henv : env.Keeps P)
    (hcompress : CodecKeeps P compress) (hdecompress : CodecKeeps P decompress)
    {compbuf decomp : Mem} {w : σ} (hw : P w) :
    Ends (fun res => ∃ w', P w' ∧
        ((∃ c, compressPhase env params inbuf insize param1 param2 workmem chunkSizes compress
            comprsize fuel (compressPhaseInit env compbuf w) = .error (.tooSlow c)) ∧
          res.world = w' ∨
        (¬ ∃ c, compressPhase env params inbuf insize param1 param2 workmem chunkSizes compress
            comprsize fuel (compressPhaseInit env compbuf w) = .error (.tooSlow c)) ∧
          res.world = deinitWorkmem desc workmem w'))
      (fun _ => True)
      (measure env params desc level compress decompress inbuf insize comprsize param1 param2
        workmem chunkSizes fuel compbuf decomp w) := by
  have hphase : Ends (fun s : CompressPhase σ => P s.world)
      (fun e => ∀ s, e = CompressExit.tooSlow s → P s.world)
      (compressPhase env params inbuf insize param1 param2 workmem chunkSizes compress comprsize
        fuel (compressPhaseInit env compbuf w)) :=
    ends_compressPhase_keeps henv hcompress (henv.getTime _ hw)
  rw [measure]
  split
  · exact (ends_error _ _ _).mpr trivial
  · rename_i c hc
    exact (ends_ok _ _ _).mpr ⟨c.world, hphase.error _ hc c rfl, Or.inl ⟨⟨c, hc⟩, rfl⟩⟩
  · rename_i c hc
    have hstart : P (decompressPhaseInit env decomp c.world).world :=
      henv.getTime _ (hphase.ok c hc)
    have hdec : Ends (fun s : DecompressPhase σ => P s.world) (fun _ => True)
        (if params.compressOnly then .ok (decompressPhaseInit env decomp c.world) else
          decompressPhase env params inbuf insize param1 param2 workmem chunkSizes decompress
            c.comprSizes c.compbuf fuel (decompressPhaseInit env decomp c.world)) := by
      split
      · exact (ends_ok _ _ _).mpr hstart
      · exact ends_decompressPhase_keeps henv hdecompress hstart
    simp only
    split
    · exact (ends_error _ _ _).mpr trivial
    · rename_i d hd
      exact (ends_ok _ _ _).mpr ⟨d.world, hdec.ok d hd, Or.inr ⟨by simp [hc], rfl⟩⟩

/-- The compressor is found too slow by the measuring loop, where the run returns. -/
def ReturnsTooSlow (env : Env σ) (params : LzbenchParams) (fileSizes : List ℕ)
    (desc : CompressorDesc σ) (inbuf : Mem) (insize : ℕ) (comprsize : UInt64) (param1 fuel : ℕ)
    (compbuf : Mem) (w : σ) : Prop :=
  let param2 := toSize desc.additionalParam
  let chunkSize := effectiveChunkSize params.chunkSize insize desc.maxBlockSize
  let workmem := initWorkmem desc chunkSize param1 param2 w
  ∃ compress decompress chunkSizes c,
    desc.compress = some compress ∧ desc.decompress = some decompress ∧
    let tried := tryCspeed env params compress chunkSize inbuf param1 param2 workmem.1 compbuf
      workmem.2
    tried.1 = false ∧ splitFiles chunkSize fileSizes = some chunkSizes ∧
      compressPhase env params inbuf insize param1 param2 workmem.1 chunkSizes compress comprsize
        fuel (compressPhaseInit env tried.2.1 tried.2.2) = .error (.tooSlow c)

/-- A whole run: `P` holds from `init` on, up to the way out. -/
theorem ends_lzbenchTest_world (henv : env.Keeps P)
    (hcompress : ∀ c, desc.compress = some c → CodecKeeps P c)
    (hdecompress : ∀ c, desc.decompress = some c → CodecKeeps P c) {compbuf decomp : Mem} {w : σ}
    (hinit : P (initWorkmem desc (effectiveChunkSize params.chunkSize insize desc.maxBlockSize)
      param1 (toSize desc.additionalParam) w).2) :
    Ends (fun res =>
        ((desc.compress = none ∨ desc.decompress = none) ∧ res.world = deinitWorkmem desc 0 w) ∨
        ∃ w', P w' ∧
          (ReturnsTooSlow env params fileSizes desc inbuf insize comprsize param1 fuel compbuf w ∧
            res.world = w' ∨
          ¬ ReturnsTooSlow env params fileSizes desc inbuf insize comprsize param1 fuel compbuf w ∧
            res.world = deinitWorkmem desc (initWorkmem desc (effectiveChunkSize params.chunkSize
              insize desc.maxBlockSize) param1 (toSize desc.additionalParam) w).1 w'))
      (fun _ => True)
      (lzbenchTest env params fileSizes desc level inbuf insize comprsize param1 fuel compbuf decomp
        w) := by
  simp only [lzbenchTest, ReturnsTooSlow]
  cases hc : desc.compress with
  | none => exact (ends_ok _ _ _).mpr (Or.inl ⟨Or.inl rfl, rfl⟩)
  | some compress =>
    cases hd : desc.decompress with
    | none => exact (ends_ok _ _ _).mpr (Or.inl ⟨Or.inr rfl, rfl⟩)
    | some decompress =>
      have htried := @tryCspeed_keeps _ P env params inbuf param1 (toSize desc.additionalParam)
        (initWorkmem desc (effectiveChunkSize params.chunkSize insize desc.maxBlockSize) param1
          (toSize desc.additionalParam) w).1 compress henv (hcompress compress hc)
        (effectiveChunkSize params.chunkSize insize desc.maxBlockSize) compbuf _ hinit
      simp only
      split
      · rename_i hslow
        refine (ends_ok _ _ _).mpr (Or.inr ⟨_, htried, Or.inr ⟨?_, rfl⟩⟩)
        rintro ⟨c, d, chunkSizes, s, hc', -, hfast, -⟩
        obtain rfl := Option.some.inj hc'
        rw [hslow] at hfast
        cases hfast
      · rename_i hfast
        split
        · exact (ends_error _ _ _).mpr trivial
        · rename_i chunkSizes hchunks
          refine (ends_measure_world henv (hcompress compress hc) (hdecompress decompress hd)
            htried).mono ?_ fun _ _ => trivial
          rintro res ⟨w', hw', hend⟩
          refine Or.inr ⟨w', hw', hend.imp (And.imp_left ?_) (And.imp_left ?_)⟩
          · rintro ⟨c, hslow⟩
            exact ⟨compress, decompress, chunkSizes, c, rfl, rfl, Bool.not_eq_true _ ▸ hfast,
              hchunks, hslow⟩
          · rintro hnone ⟨c, d, chunkSizes', s, hc', -, -, hchunks', hslow⟩
            obtain rfl := Option.some.inj hc'
            obtain rfl := Option.some.inj (hchunks.symm.trans hchunks')
            exact hnone ⟨s, hslow⟩

/-- A run keeps what the clock and its codec keep. -/
theorem ends_lzbenchTest_keeps (henv : env.Keeps P) (hdesc : desc.Keeps P) {compbuf decomp : Mem}
    {w : σ} (hw : P w) :
    Ends (fun res => P res.world) (fun _ => True)
      (lzbenchTest env params fileSizes desc level inbuf insize comprsize param1 fuel compbuf decomp
        w) := by
  refine (ends_lzbenchTest_world henv hdesc.compress hdesc.decompress
    (initWorkmem_keeps hdesc _ _ _ hw)).mono ?_ fun _ _ => trivial
  rintro res (⟨-, hend⟩ | ⟨w', hw', ⟨-, hend⟩ | ⟨-, hend⟩⟩)
  · exact hend ▸ deinitWorkmem_keeps hdesc 0 hw
  · exact hend ▸ hw'
  · exact hend ▸ deinitWorkmem_keeps hdesc _ hw'

end Run

section Drivers

variable {host : Host σ} {fuel : ℕ} {wrappers : Wrappers σ} {encoderList : Option String}

/-- Everything that a run of an encoder list uses keeps `P`. -/
structure Keeps (host : Host σ) (wrappers : Wrappers σ) (P : σ → Prop) : Prop where
  env : host.env.Keeps P
  desc : ∀ d ∈ compDesc wrappers, d.Keeps P

theorem ends_benchTest_keeps {input : Input} {comprsize : ℕ} {params : LzbenchParams}
    {desc : CompressorDesc σ} {level : ℤ} {param1 : ℕ} {s : Bench σ} (henv : host.env.Keeps P)
    (hdesc : desc.Keeps P) (hs : P s.world) :
    Ends (fun r => P r.2.world) (fun _ => True)
      (benchTest host fuel input comprsize params desc level param1 s) := by
  have hrun : Ends (fun res => P res.world) (fun _ => True)
      (lzbenchTest host.env params input.fileSizes desc level input.inbuf input.insize
        (UInt64.ofNat comprsize) param1 fuel s.compbuf s.decomp s.world) :=
    ends_lzbenchTest_keeps henv hdesc hs
  simp only [benchTest]
  split
  · exact (ends_error _ _ _).mpr trivial
  · exact (ends_ok _ _ _).mpr (hrun.ok _ ‹_›)

/-- The baseline. -/
theorem ends_benchMemcpy_keeps (h : Keeps host wrappers P) {input : Input} {s : Bench σ}
    (hs : P s.world) :
    Ends (fun s : Bench σ => P s.world) (fun _ => True)
      (benchMemcpy host fuel wrappers input s) := by
  have hmem : (compTable.head (by decide)).desc wrappers ∈ compDesc wrappers :=
    List.mem_map_of_mem (List.head_mem _)
  exact (ends_benchTest_keeps h.env (h.desc _ hmem) hs).bind fun _ hr => (ends_ok _ _ _).mpr hr

/-- An encoder list. -/
theorem ends_benchEncoders_keeps (h : Keeps host wrappers P) {input : Input} {comprsize : ℕ}
    {s : Bench σ} (hs : P s.world) :
    Ends (fun s : Bench σ => P s.world) (fun _ => True)
      (benchEncoders host fuel wrappers encoderList input comprsize s) := by
  refine ends_lzbenchTestWithParams (fun desc hdesc level param1 s hs => ?_)
    (fun _ _ _ hs => hs) (fun _ _ => trivial) fuel _ hs
  exact (ends_benchTest_keeps h.env (h.desc desc hdesc) hs).bind fun _ hr =>
    (ends_ok _ _ _).mpr hr

end Drivers

/-! ## A clock that goes on -/

/-- A clock that goes on by `tick` nanoseconds every time it is read. -/
def tickingEnv (tick : ℕ) : Env ℕ := ⟨fun w => (w, w + tick), id, 0⟩

section Ticking

/-- The variables after the first iteration, where the timer was started at `w`. -/
def tickedLaps (tick w : ℕ) : Laps :=
  ((Laps.init w).start (w + tick)).tick (w + tick + tick) (w + tick + tick + tick)

/-- One iteration is a round. -/
theorem tickedLaps_round {tick w looptime : ℕ} (hend : w + 3 * tick < 2 ^ 64)
    (hloop : looptime ≤ 2 * tick) : ¬ (tickedLaps tick w).nanosec < looptime := by
  have htime : getDiffTime (w + tick) (w + tick + tick + tick) = 2 * tick :=
    (subSize_of_le (by omega) (by omega)).trans (by omega)
  simp only [tickedLaps, Laps.nanosec, Laps.tick, Laps.start, htime]
  omega

/-- After it there were iterations and time enough. -/
theorem tickedLaps_enough {tick w iters mintime : ℕ} (hend : w + 3 * tick < 2 ^ 64)
    (hiters : iters ≤ 1) (hmin : mintime * 1000000 < 3 * tick) :
    (tickedLaps tick w).finish.count.enough iters mintime = true := by
  have htotal : getDiffTime w (w + tick + tick + tick) = 3 * tick :=
    (subSize_of_le (by omega) (by omega)).trans (by omega)
  simp only [Laps.enough, Laps.count, Laps.finish, tickedLaps, Laps.tick, Laps.start, Laps.init,
    htotal, decide_eq_true_eq]
  omega

variable {desc : CompressorDesc ℕ} {compress decompress : CompressFunc ℕ}
  {fileSizes chunkSizes comprSizes : List ℕ} {level : ℤ} {inbuf : Mem} {insize : ℕ}
  {comprsize : UInt64} {param1 param2 workmem fuel : ℕ} {compbuf decomp : Mem} {tick w : ℕ}

/-- Without a speed limit no compressor is too slow. -/
theorem compressFinish_unlimited (env : Env ℕ) {params : LzbenchParams} (h : params.cspeed = 0)
    (insize : ℕ) (s : CompressPhase ℕ) :
    compressFinish env params insize s = .ok { s with laps := s.laps.finish.count } := by
  simp only [compressFinish, h, Nat.not_lt_zero, if_false]

/-- The compression phase ends after a round. -/
theorem compressPhase_ticking (hcompress : ∀ w, CodecKeeps (· = w) compress)
    (hlen : chunkSizes.length < 2 ^ 31) (htick : 1000000000 ≤ tick)
    (hend : w + 3 * tick < 2 ^ 64) :
    ∃ c, compressPhase (tickingEnv tick) defaultParams inbuf insize param1 param2 workmem
      chunkSizes compress comprsize (fuel + 1) (compressPhaseInit (tickingEnv tick) compbuf w) =
        .ok c ∧ c.world = w + tick + tick + tick + tick := by
  let s := compressStart (tickingEnv tick) (compressPhaseInit (tickingEnv tick) compbuf w)
  obtain ⟨r, hr⟩ := lzbenchCompress_returns compress inbuf param1 param2 workmem hlen
    s.comprSizes s.compbuf comprsize ((tickingEnv tick).getTime s.world).2
  have hworld : r.world = ((tickingEnv tick).getTime s.world).2 :=
    (ends_lzbenchCompress_keeps (hcompress _) rfl).ok r hr
  have hiter : compressIter (tickingEnv tick) inbuf param1 param2 workmem chunkSizes compress
      comprsize s = .ok (compressDone (tickingEnv tick) s r) := by
    simp only [compressIter, hr]
  generalize hdone : compressDone (tickingEnv tick) s r = c at hiter
  have hlaps : c.laps = tickedLaps tick w := by
    rw [← hdone, compressDone, hworld]
    rfl
  have hclock : c.world = w + tick + tick + tick + tick := by
    rw [← hdone, compressDone, hworld]
    rfl
  have hround : ¬ c.laps.nanosec < defaultParams.cloopTime := by
    have hloop : defaultParams.cloopTime = 100000000 := rfl
    rw [hlaps]
    exact tickedLaps_round hend (by omega)
  have hinner := @doWhile_once _ _ (fun _ => CompressExit.stop .hang) _
    (fun s : CompressPhase ℕ => s.laps.nanosec < defaultParams.cloopTime) fuel _ _ hiter
    (decide_eq_false hround)
  refine ⟨{ c with laps := c.laps.finish.count }, doWhile_once ?_ ?_, hclock⟩
  · have hspeed : defaultParams.cspeed = 0 := rfl
    rw [hinner]
    exact compressFinish_unlimited (tickingEnv tick) hspeed insize c
  · have hmin : defaultParams.cmintime = 1000 := rfl
    rw [hlaps, tickedLaps_enough hend (by decide) (by omega)]
    rfl

/-- So does the decompression phase. -/
theorem decompressPhase_ticking (hdecompress : ∀ w, CodecKeeps (· = w) decompress)
    (htick : 1000000000 ≤ tick) (hend : w + 3 * tick < 2 ^ 64) :
    ∃ d, decompressPhase (tickingEnv tick) defaultParams inbuf insize param1 param2 workmem
      chunkSizes decompress comprSizes compbuf (fuel + 1)
      (decompressPhaseInit (tickingEnv tick) decomp w) = .ok d := by
  let s := decompressStart (tickingEnv tick) (decompressPhaseInit (tickingEnv tick) decomp w)
  have hworld := @lzbenchDecompress_keeps _ _ decompress compbuf param1 param2 workmem
    (hdecompress _) chunkSizes comprSizes s.decomp ((tickingEnv tick).getTime s.world).2 rfl
  generalize hiter : decompressIter (tickingEnv tick) param1 param2 workmem chunkSizes decompress
    comprSizes compbuf s = d
  have hlaps : d.laps = tickedLaps tick w := by
    rw [← hiter, decompressIter, hworld]
    rfl
  have hround : ¬ d.laps.nanosec < defaultParams.dloopTime := by
    have hloop : defaultParams.dloopTime = 100000000 := rfl
    rw [hlaps]
    exact tickedLaps_round hend (by omega)
  have hinner := @doWhile_once _ _ (fun s => (Stop.hang, s)) (fun s => .ok (decompressIter
    (tickingEnv tick) param1 param2 workmem chunkSizes decompress comprSizes compbuf s))
    (fun s : DecompressPhase ℕ => s.laps.nanosec < defaultParams.dloopTime) fuel s d
    (congrArg _ hiter) (decide_eq_false hround)
  have hfinish : ∃ d', decompressFinish defaultParams inbuf insize d = .ok d' ∧
      (d'.decompError = false → d'.laps = d.laps.finish.count) := by
    have hverbose : ¬ defaultParams.verbose ≥ 10 := by decide
    simp only [decompressFinish, hverbose, and_false, if_false]
    cases herror : d.decompError || decide (insize ≠ toSize d.decomplen) ||
        decide (¬ Mem.SameBytes inbuf 0 d.decomp 0 insize) with
    | true => exact ⟨_, rfl, fun h => absurd h (by simp)⟩
    | false => exact ⟨_, rfl, fun _ => rfl⟩
  obtain ⟨d', hfinish, hcount⟩ := hfinish
  refine ⟨d', doWhile_once ?_ ?_⟩
  · rw [hinner]
    exact hfinish
  · cases herror : d'.decompError with
    | true => rfl
    | false =>
      have hmin : defaultParams.dmintime = 2000 := rfl
      rw [hcount herror, hlaps, tickedLaps_enough hend (by decide) (by omega)]
      rfl

/-- A run on this clock records a row, if its codec leaves the clock alone. -/
theorem lzbenchTest_ticking (hc : desc.compress = some compress)
    (hd : desc.decompress = some decompress) (hinit : desc.init = none)
    (hcompress : ∀ w, CodecKeeps (· = w) compress)
    (hdecompress : ∀ w, CodecKeeps (· = w) decompress)
    (hchunks : splitFiles (effectiveChunkSize defaultParams.chunkSize insize desc.maxBlockSize)
      fileSizes = some chunkSizes) (hlen : chunkSizes.length < 2 ^ 31)
    (htick : 1000000000 ≤ tick) (hend : w + 7 * tick < 2 ^ 64) :
    ∃ res rep, lzbenchTest (tickingEnv tick) defaultParams fileSizes desc level inbuf insize
      comprsize param1 (fuel + 1) compbuf decomp w = .ok res ∧ res.report = some rep := by
  obtain ⟨c, hcrun, hclock⟩ := @compressPhase_ticking compress chunkSizes inbuf insize comprsize
    param1 (toSize desc.additionalParam) 0 fuel compbuf tick w hcompress hlen htick (by omega)
  obtain ⟨d, hdrun⟩ := @decompressPhase_ticking decompress chunkSizes c.comprSizes inbuf insize
    param1 (toSize desc.additionalParam) 0 fuel c.compbuf decomp tick c.world hdecompress htick
    (by omega)
  have hspeed : ¬ defaultParams.cspeed > 0 := by decide
  have honly : ¬ defaultParams.compressOnly = true := by decide
  simp only [lzbenchTest, hc, hd, initWorkmem, hinit, tryCspeed, if_neg hspeed, hchunks, measure,
    hcrun, if_neg honly, hdrun]
  exact ⟨_, _, rfl, rfl⟩

end Ticking

end Lzbench
