import Lzbench.Timing

/-!
# When a printed row says ERROR

The verdict of the verification reaches the printers as a decompression time of zero.
A time can be zero for other reasons, and the printers divide before they look: by a
thousand for microseconds, or into the size of the input for a speed.

## Main definitions

* `measuredTime` — the statistic of the measured rounds.
* `errorMarker_iff` — when the marker and the verdict agree.
-/

namespace Lzbench

open Imperative

variable {σ : Type} {env : Env σ} {params : LzbenchParams} {fileSizes : List ℕ}
  {desc : CompressorDesc σ} {level : ℤ} {inbuf : Mem} {insize : ℕ} {comprsize : UInt64}
  {param1 fuel : ℕ} {compbuf decomp : Mem} {w : σ}

/-- The statistic that `timetype` asks for, of the samples of the rounds measured. -/
def measuredTime (params : LzbenchParams) (laps : List Lap) : ℕ :=
  bestTime params.timetype (sortSamples (laps.flatMap Lap.samples))

/-- Nothing was measured. -/
@[simp] theorem measuredTime_nil (params : LzbenchParams) : measuredTime params [] = 0 := by
  simp only [measuredTime]
  cases params.timetype <;> rfl

/-- The decompression samples are those of the finished rounds, whatever the clock. -/
theorem decompressPhase_samples {param2 workmem : ℕ} {chunkSizes comprSizes : List ℕ}
    {decompress : CompressFunc σ} {s : DecompressPhase σ}
    (h0 : s.laps.samples = s.laps.laps.flatMap Lap.samples) :
    Ends (fun s' => s'.laps.samples = s'.laps.laps.flatMap Lap.samples) (fun _ => True)
      (decompressPhase env params inbuf insize param1 param2 workmem chunkSizes decompress
        comprSizes compbuf fuel s) := by
  refine ends_decompressPhase (I := fun s => s.laps.samples = s.laps.laps.flatMap Lap.samples)
    (J := fun s => s.laps.Sampled) (K := fun s => s.laps.Sampled)
    (fun _ _ _ _ => trivial) ?start ?iter ?finish fuel h0
  case start => exact fun s hs => Laps.sampled_start hs _
  case iter => exact fun s hs => (hs.elim id id).tick _ _
  case finish =>
    intro s s' hs hs'
    obtain ⟨-, -, -, -, -, hlaps⟩ := decompressFinish_ok hs'
    have hlast : s'.laps.samples = s'.laps.laps.flatMap Lap.samples := by
      rcases hlaps with hlaps | hlaps <;> rw [hlaps] <;> exact hs.finish
    exact ⟨fun _ => hlast, hlast⟩

/-- The decompression column: zero after an error and without decompression, the
measured time otherwise. -/
theorem Recorded.dtime_eq {compress decompress : CompressFunc σ} {chunkSizes : List ℕ}
    {workmem : ℕ} {rep : Report σ} {res : TestResult σ}
    (h : Recorded env params desc level inbuf insize comprsize param1 fuel decomp compress
      decompress chunkSizes workmem compbuf w rep res) :
    rep.row.col3_dtime = (if rep.decompression.decompError then 0
      else measuredTime params rep.decompression.laps.laps) ∧
    (params.compressOnly = true →
      rep.decompression.laps.laps = [] ∧ rep.decompression.decompError = false) := by
  have hphase := h.decompression
  have hsamples : rep.decompression.laps.samples =
      rep.decompression.laps.laps.flatMap Lap.samples := by
    split at hphase
    · rw [hphase]
      rfl
    · exact (decompressPhase_samples rfl).ok _ hphase
  refine ⟨?_, fun honly => ?_⟩
  · rw [h.row]
    simp only [statRow, hsamples, measuredTime]
  · rw [if_pos honly] at hphase
    rw [hphase]
    exact ⟨rfl, rfl⟩

/-- The marker is printed for failed verifications alone exactly when the run failed, or
it decompressed and the measured time survives the division of its printer. -/
theorem errorMarker_iff (ht : params.textformat.IsText) {res : TestResult σ} {rep : Report σ}
    (h : lzbenchTest env params fileSizes desc level inbuf insize comprsize param1 fuel compbuf
      decomp w = .ok res) (hrep : res.report = some rep) :
    (res.printed.any Printf.isError = true ↔ rep.decompression.decompError = true) ↔
      rep.decompression.decompError = true ∨
      params.compressOnly = false ∧
        if params.showSpeed then
          0 < insize ∧ 0 < measuredTime params rep.decompression.laps.laps
        else 1000 ≤ measuredTime params rep.decompression.laps.laps := by
  obtain ⟨compress, decompress, chunkSizes, workmem, compbuf', w', -, -, -, hrec⟩ :=
    lzbenchTest_recorded h hrep
  obtain ⟨hdtime, honly⟩ := hrec.dtime_eq
  have hsize : rep.row.col5_origsize = insize := by
    rw [hrec.row]
    rfl
  have hmarker : res.printed.any Printf.isError = true ↔
      if params.showSpeed then rep.row.col3_dtime = 0 ∨ insize = 0
      else rep.row.col3_dtime < 1000 := by
    rw [hrec.printed_eq, printRow]
    split
    · rw [printSpeed_isError ht, hsize]
    · rw [printTime_isError ht]
  have hzero (hdtime : rep.row.col3_dtime = 0) : res.printed.any Printf.isError = true := by
    rw [hmarker, hdtime]
    split
    · exact Or.inl rfl
    · decide
  cases herror : rep.decompression.decompError with
  | true =>
    -- the row of a failed run carries the time zero, which every printer marks
    rw [herror, if_pos rfl] at hdtime
    simp [hzero hdtime]
  | false =>
    simp only [herror, Bool.false_eq_true, if_false] at hdtime
    cases hcompress : params.compressOnly with
    | true =>
      rw [(honly hcompress).1, measuredTime_nil] at hdtime
      simp [hzero hdtime]
    | false =>
      rw [hmarker, hdtime]
      by_cases hspeed : params.showSpeed = true
      · simp only [hspeed, if_true, Bool.false_eq_true, iff_false, false_or, true_and]
        omega
      · simp only [hspeed, if_false, Bool.false_eq_true, iff_false, false_or, true_and]
        omega

/-- With `--compress-only` nothing is verified and every row says ERROR. -/
theorem errorMarker_compressOnly :
    ∃ res rep, lzbenchTest shownEnv { defaultParams with compressOnly := true } [3] warmingDesc 0
        (Mem.ofList [7, 7, 7]) 3 20000 0 2 (Mem.ofList []) (Mem.ofList []) 0 = .ok res ∧
      res.report = some rep ∧ rep.decompression.decompError = false ∧
      res.printed.any Printf.isError = true :=
  ⟨_, _, rfl, rfl, rfl, (printSpeed_isError (Or.inl rfl) _).mpr (Or.inl rfl)⟩

/-- A decompression of three seconds is printed as a speed. -/
theorem errorMarker_warming :
    ∃ res rep, lzbenchTest shownEnv defaultParams [3] warmingDesc 0 (Mem.ofList [7, 7, 7]) 3
        20000 0 2 (Mem.ofList []) (Mem.ofList []) 0 = .ok res ∧ res.report = some rep ∧
      (res.printed.any Printf.isError = true ↔ rep.decompression.decompError = true) := by
  obtain ⟨res, rep, hrun, hrep, -, hd, -, -⟩ := warming_run
  refine ⟨res, rep, hrun, hrep, (errorMarker_iff (Or.inl rfl) hrun hrep).mpr (Or.inr ⟨rfl, ?_⟩)⟩
  rw [hd]
  decide

end Lzbench
