import Lzbench.Measure

/-!
# One benchmark run

`lzbench_test` caps the chunk size, optionally tries 100 KB for speed, cuts the files
into chunks, measures both directions and records a row.

## Main definitions

* `lzbenchTest` — the whole run.
* `Report` — what the two phases left when the row was recorded.
* `ends_lzbenchTest` — the rule of a run; `Recorded` tells where a row comes from.
-/

namespace Lzbench

open Imperative

/-- What the two phases left when a row was recorded. -/
structure Report (σ : Type) where
  row : StringTable
  compression : CompressPhase σ
  decompression : DecompressPhase σ

/-- What a run leaves behind.  `report` is present when a row was recorded; `results`
and `printed` are the effects of that. -/
structure TestResult (σ : Type) where
  results : List StringTable
  printed : List Printf
  compbuf : Mem
  decomp : Mem
  world : σ
  report : Option (Report σ)

/-- How a run stops before it returns, with the output buffer at the start of every
decompression round begun. -/
structure Fault where
  stop : Stop
  entries : List Mem

section Run

variable {σ : Type} (env : Env σ)

/-- `workmem`, as `init` returns it. -/
def initWorkmem (desc : CompressorDesc σ) (chunkSize param1 param2 : ℕ) (w : σ) : ℕ × σ :=
  match desc.init with
  | none => (0, w)
  | some init => init chunkSize param1 param2 w

/-- `done:`, where `workmem` is given back. -/
def deinitWorkmem (desc : CompressorDesc σ) (workmem : ℕ) (w : σ) : σ :=
  match desc.deinit with
  | none => w
  | some deinit => deinit workmem w

/-- A run that leaves no row. -/
def unreported (params : LzbenchParams) (compbuf decomp : Mem) (w : σ) : TestResult σ :=
  ⟨params.results, [], compbuf, decomp, w, none⟩

/-- The speed test on the first 100 KB.  The result tells whether the compressor is
too slow. -/
def tryCspeed (params : LzbenchParams) (compress : CompressFunc σ) (chunkSize : ℕ)
    (inbuf : Mem) (param1 param2 workmem : ℕ) (compbuf : Mem) (w : σ) : Bool × Mem × σ :=
  if params.cspeed > 0 then
    let part := min (100 * 1024) chunkSize
    let startTicks := env.getTime w
    let r := compress ⟨inbuf, 0, part, compbuf, 0, getCompressBound part, param1, param2,
      workmem⟩ startTicks.2
    let endTicks := env.getTime r.world
    let nanosec := getDiffTime startTicks.1 endTicks.1 / 1000
    (r.ret > 0 ∧ nanosec ≥ 1000 ∧ part / nanosec < params.cspeed, r.out, endTicks.2)
  else (false, compbuf, w)

/-- The state in which the compression phase begins. -/
def compressPhaseInit (compbuf : Mem) (w : σ) : CompressPhase σ :=
  let timerTicks := env.getTime w
  ⟨[], compbuf, 0, false, Laps.init timerTicks.1, timerTicks.2⟩

/-- The state in which the decompression phase begins. -/
def decompressPhaseInit (decomp : Mem) (w : σ) : DecompressPhase σ :=
  let timerTicks := env.getTime w
  ⟨decomp, 0, false, Laps.init timerTicks.1, timerTicks.2, decomp, [], []⟩

/-- The two phases and `print_stats`. -/
def measure (params : LzbenchParams) (desc : CompressorDesc σ) (level : ℤ)
    (compress decompress : CompressFunc σ) (inbuf : Mem) (insize : ℕ) (comprsize : UInt64)
    (param1 param2 workmem : ℕ) (chunkSizes : List ℕ) (fuel : ℕ) (compbuf decomp : Mem) (w : σ) :
    Except Fault (TestResult σ) :=
  match compressPhase env params inbuf insize param1 param2 workmem chunkSizes compress
      comprsize fuel (compressPhaseInit env compbuf w) with
  | .error (.stop e) => .error ⟨e, []⟩
  | .error (.tooSlow c) => .ok (unreported params c.compbuf decomp c.world)
  | .ok c =>
    let s := decompressPhaseInit env decomp c.world
    match if params.compressOnly then .ok s else
        decompressPhase env params inbuf insize param1 param2 workmem chunkSizes decompress
          c.comprSizes c.compbuf fuel s with
    | .error (e, d) => .error ⟨e, d.rounds.map Round.entry ++ [d.entry]⟩
    | .ok d =>
      let row := statRow params desc level c.laps.samples d.laps.samples insize c.complen
        d.decompError
      .ok ⟨params.results ++ [row], printRow params row, c.compbuf, d.decomp,
        deinitWorkmem desc workmem d.world, some ⟨row, c, d⟩⟩

/-- `lzbench_test`. -/
def lzbenchTest (params : LzbenchParams) (fileSizes : List ℕ) (desc : CompressorDesc σ)
    (level : ℤ) (inbuf : Mem) (insize : ℕ) (comprsize : UInt64) (param1 : ℕ) (fuel : ℕ)
    (compbuf decomp : Mem) (w : σ) : Except Fault (TestResult σ) :=
  let param2 := toSize desc.additionalParam
  let chunkSize := effectiveChunkSize params.chunkSize insize desc.maxBlockSize
  match desc.compress, desc.decompress with
  | some compress, some decompress =>
    let workmem := initWorkmem desc chunkSize param1 param2 w
    let tried := tryCspeed env params compress chunkSize inbuf param1 param2 workmem.1 compbuf
      workmem.2
    if tried.1 then
      .ok (unreported params tried.2.1 decomp (deinitWorkmem desc workmem.1 tried.2.2))
    else
      match splitFiles chunkSize fileSizes with
      | none => .error ⟨.hang, []⟩
      | some chunkSizes =>
        measure env params desc level compress decompress inbuf insize comprsize param1 param2
          workmem.1 chunkSizes fuel tried.2.1 decomp tried.2.2
  | _, _ => .ok (unreported params compbuf decomp (deinitWorkmem desc 0 w))

variable {env} {params : LzbenchParams} {fileSizes : List ℕ} {desc : CompressorDesc σ} {level : ℤ}
  {inbuf : Mem} {insize : ℕ} {comprsize : UInt64} {param1 fuel : ℕ} {compbuf decomp : Mem} {w : σ}

/-- A run that returned without a row: the output buffer is as it was.  Without a speed
limit only a missing codec function leaves no row. -/
structure Unreported (params : LzbenchParams) (desc : CompressorDesc σ) (decomp : Mem)
    (res : TestResult σ) : Prop where
  report_eq : res.report = none
  decomp_eq : res.decomp = decomp
  results_eq : res.results = params.results
  printed_eq : res.printed = []
  missing : params.cspeed = 0 → desc.compress = none ∨ desc.decompress = none

/-- How a row came about: the chunks that were measured, the two phases, and what
`print_stats` made of them. -/
structure Recorded (env : Env σ) (params : LzbenchParams) (desc : CompressorDesc σ) (level : ℤ)
    (inbuf : Mem) (insize : ℕ) (comprsize : UInt64) (param1 fuel : ℕ) (decomp : Mem)
    (compress decompress : CompressFunc σ) (chunkSizes : List ℕ) (workmem : ℕ) (compbuf : Mem)
    (w : σ) (rep : Report σ) (res : TestResult σ) : Prop where
  compression : compressPhase env params inbuf insize param1 (toSize desc.additionalParam) workmem
    chunkSizes compress comprsize fuel (compressPhaseInit env compbuf w) = .ok rep.compression
  decompression : if params.compressOnly then
      rep.decompression = decompressPhaseInit env decomp rep.compression.world
    else decompressPhase env params inbuf insize param1 (toSize desc.additionalParam) workmem
      chunkSizes decompress rep.compression.comprSizes rep.compression.compbuf fuel
      (decompressPhaseInit env decomp rep.compression.world) = .ok rep.decompression
  row : rep.row = statRow params desc level rep.compression.laps.samples
    rep.decompression.laps.samples insize rep.compression.complen rep.decompression.decompError
  report_eq : res.report = some rep
  compbuf_eq : res.compbuf = rep.compression.compbuf
  decomp_eq : res.decomp = rep.decompression.decomp
  results_eq : res.results = params.results ++ [rep.row]
  printed_eq : res.printed = printRow params rep.row

/-- The compressor is found too slow only against a speed limit. -/
theorem compressPhase_tooSlow {compress : CompressFunc σ} {chunkSizes : List ℕ}
    {param2 workmem : ℕ} {s c : CompressPhase σ}
    (h : compressPhase env params inbuf insize param1 param2 workmem chunkSizes compress comprsize
      fuel s = .error (.tooSlow c)) : 0 < params.cspeed := by
  have hrule : Ends (fun _ => True)
      (fun e => ∀ c, e = CompressExit.tooSlow c → 0 < params.cspeed)
      (compressPhase env params inbuf insize param1 param2 workmem chunkSizes compress comprsize
        fuel s) :=
    ends_compressPhase (I := fun _ => True) (J := fun _ => True) (K := fun _ => True)
      (fun _ h => nomatch h) (fun _ _ _ _ _ h => nomatch h) (fun _ _ => trivial)
      (fun _ _ _ _ => trivial) (fun _ _ hpos _ _ => hpos) (fun _ _ => ⟨trivial, trivial⟩) fuel
      trivial
  exact hrule.error _ h c rfl

/-- The rule of the two phases: they stop, find the compressor too slow, or record a
row. -/
theorem ends_measure {compress decompress : CompressFunc σ} {chunkSizes : List ℕ} {workmem : ℕ}
    {P : TestResult σ → Prop} {E : Fault → Prop}
    (hslow : ∀ buf w', 0 < params.cspeed → P (unreported params buf decomp w'))
    (hrec : ∀ rep res, Recorded env params desc level inbuf insize comprsize param1 fuel decomp
      compress decompress chunkSizes workmem compbuf w rep res → P res)
    (hcompress : ∀ e, compressPhase env params inbuf insize param1 (toSize desc.additionalParam)
      workmem chunkSizes compress comprsize fuel (compressPhaseInit env compbuf w) =
        .error (.stop e) → E ⟨e, []⟩)
    (hdecompress : ∀ (c : CompressPhase σ) e d, decompressPhase env params inbuf insize param1
      (toSize desc.additionalParam) workmem chunkSizes decompress c.comprSizes c.compbuf fuel
      (decompressPhaseInit env decomp c.world) = .error (e, d) →
        E ⟨e, d.rounds.map Round.entry ++ [d.entry]⟩) :
    Ends P E (measure env params desc level compress decompress inbuf insize comprsize param1
      (toSize desc.additionalParam) workmem chunkSizes fuel compbuf decomp w) := by
  rw [measure]
  cases hc : compressPhase env params inbuf insize param1 (toSize desc.additionalParam) workmem
      chunkSizes compress comprsize fuel (compressPhaseInit env compbuf w) with
  | error e =>
    cases e with
    | stop e => exact (ends_error P E _).mpr (hcompress e hc)
    | tooSlow c => exact (ends_ok P E _).mpr (hslow _ _ (compressPhase_tooSlow hc))
  | ok c =>
    by_cases honly : params.compressOnly = true
    · simp only [honly, if_true]
      refine (ends_ok P E _).mpr (hrec ⟨_, c, _⟩ _ ⟨hc, ?_, rfl, rfl, rfl, rfl, rfl, rfl⟩)
      rw [if_pos honly]
    · simp only [honly]
      cases hd : decompressPhase env params inbuf insize param1 (toSize desc.additionalParam)
          workmem chunkSizes decompress c.comprSizes c.compbuf fuel
          (decompressPhaseInit env decomp c.world) with
      | error e => exact (ends_error P E _).mpr (hdecompress c e.1 e.2 hd)
      | ok d =>
        refine (ends_ok P E _).mpr (hrec ⟨_, c, d⟩ _ ⟨hc, ?_, rfl, rfl, rfl, rfl, rfl, rfl⟩)
        rw [if_neg honly]
        exact hd

/-- The rule of a whole run. -/
theorem ends_lzbenchTest {P : TestResult σ → Prop} {E : Fault → Prop}
    (hnone : ∀ res, Unreported params desc decomp res → P res)
    (hrec : ∀ compress decompress chunkSizes workmem compbuf' w' rep res,
      desc.compress = some compress → desc.decompress = some decompress →
      splitFiles (effectiveChunkSize params.chunkSize insize desc.maxBlockSize) fileSizes =
        some chunkSizes →
      Recorded env params desc level inbuf insize comprsize param1 fuel decomp compress decompress
        chunkSizes workmem compbuf' w' rep res → P res)
    (hhang : E ⟨.hang, []⟩)
    (hcompress : ∀ compress chunkSizes workmem compbuf' w' e,
      desc.compress = some compress →
      splitFiles (effectiveChunkSize params.chunkSize insize desc.maxBlockSize) fileSizes =
        some chunkSizes →
      compressPhase env params inbuf insize param1 (toSize desc.additionalParam) workmem chunkSizes
        compress comprsize fuel (compressPhaseInit env compbuf' w') = .error (.stop e) →
      E ⟨e, []⟩)
    (hdecompress : ∀ decompress chunkSizes workmem (c : CompressPhase σ) e d,
      desc.decompress = some decompress →
      decompressPhase env params inbuf insize param1 (toSize desc.additionalParam) workmem
        chunkSizes decompress c.comprSizes c.compbuf fuel
        (decompressPhaseInit env decomp c.world) = .error (e, d) →
      E ⟨e, d.rounds.map Round.entry ++ [d.entry]⟩) :
    Ends P E (lzbenchTest env params fileSizes desc level inbuf insize comprsize param1 fuel compbuf
      decomp w) := by
  simp only [lzbenchTest]
  split
  · rename_i compress decompress hc hd
    split
    · rename_i hslow
      refine (ends_ok P E _).mpr (hnone _ ⟨rfl, rfl, rfl, rfl, fun hzero => ?_⟩)
      simp [tryCspeed, hzero] at hslow
    · split
      · exact (ends_error P E _).mpr hhang
      · rename_i chunkSizes hchunks
        refine ends_measure (fun buf w' hpos => ?_) (fun rep res => ?_) (fun e => ?_)
          (fun c e d => ?_)
        · exact hnone _ ⟨rfl, rfl, rfl, rfl, fun hzero => absurd hzero (by omega)⟩
        · exact hrec compress decompress chunkSizes _ _ _ rep res hc hd hchunks
        · exact hcompress compress chunkSizes _ _ _ e hc hchunks
        · exact hdecompress decompress chunkSizes _ c e d hd
  · rename_i hmissing
    refine (ends_ok P E _).mpr (hnone _ ⟨rfl, rfl, rfl, rfl, fun _ => ?_⟩)
    cases hc : desc.compress with
    | none => exact Or.inl rfl
    | some compress =>
      cases hd : desc.decompress with
      | none => exact Or.inr rfl
      | some decompress => exact (hmissing compress decompress hc hd).elim

/-- A run that returned either left no row or recorded one. -/
def Returned (env : Env σ) (params : LzbenchParams) (fileSizes : List ℕ) (desc : CompressorDesc σ)
    (level : ℤ) (inbuf : Mem) (insize : ℕ) (comprsize : UInt64) (param1 fuel : ℕ) (decomp : Mem)
    (res : TestResult σ) : Prop :=
  Unreported params desc decomp res ∨
  ∃ compress decompress chunkSizes workmem compbuf w rep,
    desc.compress = some compress ∧ desc.decompress = some decompress ∧
    splitFiles (effectiveChunkSize params.chunkSize insize desc.maxBlockSize) fileSizes =
      some chunkSizes ∧
    Recorded env params desc level inbuf insize comprsize param1 fuel decomp compress decompress
      chunkSizes workmem compbuf w rep res

theorem lzbenchTest_returned {res : TestResult σ}
    (h : lzbenchTest env params fileSizes desc level inbuf insize comprsize param1 fuel compbuf
      decomp w = .ok res) :
    Returned env params fileSizes desc level inbuf insize comprsize param1 fuel decomp res := by
  have hrule : Ends (Returned env params fileSizes desc level inbuf insize comprsize param1 fuel
      decomp) (fun _ => True) (lzbenchTest env params fileSizes desc level inbuf insize comprsize
        param1 fuel compbuf decomp w) := by
    refine ends_lzbenchTest (fun _ hres => Or.inl hres) ?_ trivial
      (fun _ _ _ _ _ _ _ _ _ => trivial) (fun _ _ _ _ _ _ _ _ => trivial)
    intro compress decompress chunkSizes workmem compbuf' w' rep res hc hd hchunks hrec
    exact Or.inr ⟨compress, decompress, chunkSizes, workmem, compbuf', w', rep, hc, hd, hchunks,
      hrec⟩
  exact hrule.ok res h

/-- Where a recorded row comes from. -/
theorem lzbenchTest_recorded {res : TestResult σ} {rep : Report σ}
    (h : lzbenchTest env params fileSizes desc level inbuf insize comprsize param1 fuel compbuf
      decomp w = .ok res) (hrep : res.report = some rep) :
    ∃ compress decompress chunkSizes workmem compbuf' w',
      desc.compress = some compress ∧ desc.decompress = some decompress ∧
      splitFiles (effectiveChunkSize params.chunkSize insize desc.maxBlockSize) fileSizes =
        some chunkSizes ∧
      Recorded env params desc level inbuf insize comprsize param1 fuel decomp compress decompress
        chunkSizes workmem compbuf' w' rep res := by
  cases lzbenchTest_returned h with
  | inl hnone => simp [hnone.report_eq] at hrep
  | inr hrow =>
    obtain ⟨compress, decompress, chunkSizes, workmem, compbuf', w', rep', hc, hd, hchunks, hrec⟩ :=
      hrow
    obtain rfl : rep' = rep := Option.some.inj (hrec.report_eq.symm.trans hrep)
    exact ⟨compress, decompress, chunkSizes, workmem, compbuf', w', hc, hd, hchunks, hrec⟩

end Run

end Lzbench
