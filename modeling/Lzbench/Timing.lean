import Lzbench.Test
import Lzbench.Lib.OrderStat
import Mathlib.Algebra.BigOperators.Ring.List
import Mathlib.Algebra.Group.Action.Defs
import Mathlib.Algebra.Order.BigOperators.Group.List

/-!
# What the recorded times are statistics of

The user asks for the fastest, the average or the median time of all iterations.  The
samples that `print_stats` sees are not the iterations: an iteration of less than ten
microseconds is dropped, and every round contributes its mean as one more sample.

The clock is taken to advance in the codec calls and between the rounds only, so that
the time of a round is the sum of its iterations.

## Main definitions

* `IsStatistic` — what `timetype` asks for, without sorting.
* `CodecClock` — the clock advances in the codec calls and between rounds.
* `Reports` — what a recorded time says about the rounds.
-/

namespace Lzbench

open Imperative

variable {σ : Type}

/-- `t` is the statistic of `times` that `timetype` asks for. -/
def IsStatistic (timetype : TimeType) (times : List ℕ) (t : ℕ) : Prop :=
  match timetype with
  | .average => t = times.sum / times.length
  | .median => ∃ lo hi, IsRank times ((times.length - 1) / 2) lo ∧
      IsRank times (times.length / 2) hi ∧ t = (lo + hi) / 2
  | .fastest => t ∈ times ∧ ∀ x ∈ times, t ≤ x
  | .other _ => t ∈ times ∧ ∀ x ∈ times, t ≤ x

/-- The accumulated sum, when it does not wrap. -/
theorem accumulate_eq_sum {times : List ℕ} (h : times.sum < 2 ^ 64) :
    accumulate times = times.sum := by
  suffices H : ∀ (l : List ℕ) acc, acc + l.sum < 2 ^ 64 → l.foldl addSize acc = acc + l.sum by
    have hsum := H times 0 (by omega)
    rw [Nat.zero_add] at hsum
    exact hsum
  intro l
  induction l with
  | nil => simp
  | cons x l ih =>
    intro acc hacc
    rw [List.sum_cons] at hacc
    rw [List.foldl_cons, addSize_of_lt (by omega), ih _ (by omega), List.sum_cons]
    omega

/-- `print_stats` finds the statistic, when no sum wraps. -/
theorem bestTime_isStatistic (timetype : TimeType) {times : List ℕ} (hne : times ≠ [])
    (hsum : times.sum < 2 ^ 64) (hlt : ∀ x ∈ times, x < 2 ^ 63) :
    IsStatistic timetype times (bestTime timetype (sortSamples times)) := by
  have hpos : 0 < times.length := List.length_pos_iff.mpr hne
  have hperm := List.perm_insertionSort (· ≤ ·) times
  have hlen : (sortSamples times).length = times.length := hperm.length_eq
  have hempty : (sortSamples times).isEmpty = false := by
    rw [List.isEmpty_eq_false_iff, ← List.length_pos_iff, hlen]
    exact hpos
  have hfirst := isRank_zero.mp (isRank_insertionSort hpos 0)
  cases timetype with
  | average =>
    have hsort : (sortSamples times).sum = times.sum := hperm.sum_eq
    simp only [bestTime, hempty, Bool.false_eq_true, if_false, hlen]
    rw [accumulate_eq_sum (hsort.symm ▸ hsum), hsort]
    rfl
  | median =>
    have hlo : IsRank times ((times.length - 1) / 2)
        ((sortSamples times).getD ((times.length - 1) / 2) 0) := isRank_insertionSort (by omega) 0
    have hhi : IsRank times (times.length / 2) ((sortSamples times).getD (times.length / 2) 0) :=
      isRank_insertionSort (by omega) 0
    refine ⟨_, _, hlo, hhi, ?_⟩
    have hlolt := hlt _ hlo.mem
    have hhilt := hlt _ hhi.mem
    simp only [bestTime, hempty, Bool.false_eq_true, if_false, hlen]
    rw [addSize_of_lt (by omega)]
  | fastest =>
    simp only [bestTime, hempty, Bool.false_eq_true, if_false]
    exact hfirst
  | other n =>
    simp only [bestTime, hempty, Bool.false_eq_true, if_false]
    exact hfirst

/-! ## The clock -/

/-- The clock shows `time`, which stands still while it is read and never goes
backwards. -/
structure CodecClock (env : Env σ) (time : σ → ℕ) (desc : CompressorDesc σ) : Prop where
  reads : ∀ w, (env.getTime w).1 = time w
  still : ∀ w, time (env.getTime w).2 = time w
  lt : ∀ w, time w < 2 ^ 63
  sleep_le : ∀ w, time w ≤ time (env.uniSleep w)
  compress_le : ∀ c, desc.compress = some c → ∀ a w, time w ≤ time (c a w).world
  decompress_le : ∀ c, desc.decompress = some c → ∀ a w, time w ≤ time (c a w).world

/-- A whole compression call does not turn the clock back. -/
theorem time_le_lzbenchCompress {time : σ → ℕ} {compress : CompressFunc σ}
    (hc : ∀ a w, time w ≤ time (compress a w).world) {inbuf : Mem}
    {param1 param2 workmem : ℕ} {chunkSizes comprSizes : List ℕ} {outbuf : Mem}
    {outsize : UInt64} {w : σ} {r : CompressResult σ}
    (hr : lzbenchCompress compress inbuf param1 param2 workmem chunkSizes comprSizes outbuf
      outsize w = .ok r) : time w ≤ time r.world := by
  have hrun : Ends (fun s => time w ≤ time s.world) (fun s => time w ≤ time s.world)
      ((chunkSizes.take (chunkCount chunkSizes.length).toNat).foldlM
        (compressStep compress inbuf param1 param2 workmem) (compressInit outbuf outsize w)) := by
    refine ends_foldlM (fun _ (s : CompressState σ) => time w ≤ time s.world) _ le_rfl ?_
    intro done part rest s _ hs
    have hle := hs.trans (hc (compressArgs inbuf param1 param2 workmem s part) s.world)
    exact ends_compressStep _ _ _ _ _ rfl (fun _ _ => hle) (fun _ _ => hle) (fun _ _ => hle)
  exact (ends_lzbenchCompress _ _ _ _ _ comprSizes hrun (fun _ hs => hs) (fun _ hs => hs)
    (P := fun r => time w ≤ time r.world)).ok r hr

/-- Nor does a whole decompression call. -/
theorem time_le_lzbenchDecompress {time : σ → ℕ} {decompress : CompressFunc σ}
    (hd : ∀ a w, time w ≤ time (decompress a w).world) (inbuf : Mem)
    (param1 param2 workmem : ℕ) (chunkSizes comprSizes : List ℕ) (outbuf : Mem) (w : σ) :
    time w ≤ time (lzbenchDecompress decompress inbuf param1 param2 workmem chunkSizes comprSizes
      outbuf w).world := by
  refine lzbenchDecompress_of_run _ _ _ _ _ (I := fun s => time w ≤ time s.world)
    (J := fun e => time w ≤ time e.2.world) ?_ (fun _ hs => hs) (fun _ hs => hs)
    (P := fun d => time w ≤ time d.world)
  refine ends_foldlM (fun _ (s : DecompressState σ) => time w ≤ time s.world) _ le_rfl ?_
  intro done entry rest s _ hs
  have hle : time w ≤ time (decompressChunk decompress inbuf param1 param2 workmem s entry.1
      entry.2).world := by
    simp only [decompressChunk]
    split
    · exact hs
    · exact hs.trans (hd _ _)
  exact ends_decompressStep _ _ _ _ _ rfl (fun _ => hle) (fun _ => hle)

/-! ## The rounds -/

/-- Between rounds, at time `now`: the samples are those of the finished rounds, and
the time of each is the sum of its iterations. -/
structure Between (now : ℕ) (l : Laps) : Prop where
  samples_eq : l.samples = l.laps.flatMap Lap.samples
  past : (l.laps.map Lap.nanosec).sum ≤ now
  laps : ∀ lap ∈ l.laps, lap.durations ≠ [] ∧ lap.nanosec = lap.durations.sum

/-- Within a round, at time `now`: the iterations so far make up the time since the
round began. -/
structure Within (now : ℕ) (l : Laps) : Prop where
  sampled : l.Sampled
  elapsed : l.loopTicks + l.lap.sum = now
  ended : l.lap ≠ [] → l.endTicks = now
  past : (l.laps.map Lap.nanosec).sum ≤ l.loopTicks
  laps : ∀ lap ∈ l.laps, lap.durations ≠ [] ∧ lap.nanosec = lap.durations.sum

theorem between_init (now : ℕ) : Between now (Laps.init now) := by
  constructor <;> simp [Laps.init]

theorem Between.start {now now' : ℕ} {l : Laps} (h : Between now l) (hle : now ≤ now') :
    Within now' (l.start now') where
  sampled := Laps.sampled_start h.samples_eq now'
  elapsed := by simp [Laps.start]
  ended := by simp [Laps.start]
  past := h.past.trans hle
  laps := h.laps

/-- A clock that goes forward measures the difference. -/
theorem getDiffTime_of_le {start stop : ℕ} (hle : start ≤ stop) (hlt : stop < 2 ^ 63) :
    getDiffTime start stop = stop - start :=
  subSize_of_le hle (by omega)

/-- An iteration that took from `now` to `now'`. -/
theorem Within.tick {now now' : ℕ} {l : Laps} (h : Within now l) (hle : now ≤ now')
    (hlt : now' < 2 ^ 63) : Within now' (l.tick now now') ∧ (l.tick now now').lap ≠ [] := by
  have hlap : (l.tick now now').lap = l.lap ++ [now' - now] := by
    simp only [Laps.tick, getDiffTime_of_le hle hlt]
  have helapsed : l.loopTicks + l.lap.sum = now := h.elapsed
  refine ⟨⟨h.sampled.tick now now', ?_, fun _ => rfl, h.past, h.laps⟩, ?_⟩
  · rw [hlap, List.sum_append, List.sum_singleton]
    change l.loopTicks + _ = _
    omega
  · simp [hlap]

/-- The round is over: its time is the sum of its iterations. -/
theorem Within.finish {now : ℕ} {l : Laps} (h : Within now l) (hne : l.lap ≠ [])
    (hlt : now < 2 ^ 63) : Between now l.finish ∧ l.finish.laps ≠ [] := by
  have helapsed : l.loopTicks + l.lap.sum = now := h.elapsed
  have hpast : (l.laps.map Lap.nanosec).sum ≤ l.loopTicks := h.past
  have hnanosec : l.nanosec = l.lap.sum := by
    rw [Laps.nanosec, h.ended hne, getDiffTime_of_le (by omega) hlt]
    omega
  refine ⟨⟨h.sampled.finish, ?_, ?_⟩, by simp [Laps.finish]⟩
  · simp only [Laps.finish, List.map_append, List.sum_append, List.map_singleton,
      List.sum_singleton, hnanosec]
    omega
  · intro lap hlap
    cases List.mem_append.mp hlap with
    | inl hold =>
      exact h.laps lap hold
    | inr hnew =>
      obtain rfl := List.mem_singleton.mp hnew
      exact ⟨hne, hnanosec⟩

/-- What a recorded time says about the rounds: it is the statistic of the samples,
and where no iteration was dropped, the fastest sample is the fastest iteration, and
the average over a single round is that of its iterations. -/
structure Reports (timetype : TimeType) (laps : List Lap) (t : ℕ) : Prop where
  sums : ∀ lap ∈ laps, lap.durations ≠ [] ∧ lap.nanosec = lap.durations.sum
  statistic : IsStatistic timetype (laps.flatMap Lap.samples) t
  exact : (∀ lap ∈ laps, ∀ x ∈ lap.durations, 10000 ≤ x) →
    timetype = .fastest ∨ (timetype = .average ∧ laps.length = 1) →
    IsStatistic timetype (laps.flatMap Lap.durations) t

/-- A round's samples are within twice its time, and none is longer than it. -/
theorem Lap.samples_le {lap : Lap} (h : lap.nanosec = lap.durations.sum) :
    lap.samples.sum ≤ 2 * lap.nanosec ∧ ∀ x ∈ lap.samples, x ≤ lap.nanosec := by
  have hfilter : (lap.durations.filter (10000 ≤ ·)).sum ≤ lap.durations.sum :=
    (List.filter_sublist).sum_le_sum fun _ _ => Nat.zero_le _
  have hmean : lap.nanosec / lap.durations.length ≤ lap.nanosec := Nat.div_le_self _ _
  constructor
  · rw [Lap.samples, List.sum_append, List.sum_singleton]
    omega
  · intro x hx
    cases List.mem_append.mp hx with
    | inl hx =>
      exact (List.le_sum_of_mem (List.mem_of_mem_filter hx)).trans h.ge
    | inr hx =>
      exact List.mem_singleton.mp hx ▸ hmean

/-- Nothing is dropped from a round of long iterations. -/
theorem Lap.samples_of_long {lap : Lap} (h : ∀ x ∈ lap.durations, 10000 ≤ x) :
    lap.samples = lap.durations ++ [lap.nanosec / lap.durations.length] := by
  rw [Lap.samples, List.filter_eq_self.mpr fun x hx => decide_eq_true (h x hx)]

/-- Some element is at most the mean, so a mean is never the least. -/
theorem exists_le_mean {l : List ℕ} (hne : l ≠ []) : ∃ x ∈ l, x ≤ l.sum / l.length := by
  by_contra! hall
  have hsum : l.length * (l.sum / l.length + 1) ≤ l.sum := by
    have hle := List.card_nsmul_le_sum l (l.sum / l.length + 1) hall
    rwa [smul_eq_mul] at hle
  have hpos : 0 < l.length := List.length_pos_iff.mpr hne
  have hdiv := Nat.lt_mul_div_succ l.sum hpos
  omega

/-- A mean that is added to its own list does not change it. -/
theorem mean_append_mean {l : List ℕ} (hne : l ≠ []) :
    (l ++ [l.sum / l.length]).sum / (l ++ [l.sum / l.length]).length = l.sum / l.length := by
  have hpos : 0 < l.length := List.length_pos_iff.mpr hne
  have hdiv : l.length * (l.sum / l.length) + l.sum % l.length = l.sum := Nat.div_add_mod _ _
  have hmod : l.sum % l.length < l.length := Nat.mod_lt _ hpos
  have hmul : (l.length + 1) * (l.sum / l.length) =
      l.length * (l.sum / l.length) + l.sum / l.length := Nat.succ_mul _ _
  have hmul' : (l.length + 1) * (l.sum / l.length + 1) =
      (l.length + 1) * (l.sum / l.length) + (l.length + 1) := Nat.mul_succ _ _
  rw [List.sum_append, List.sum_singleton, List.length_append, List.length_singleton]
  exact Nat.div_eq_of_lt_le (by rw [Nat.mul_comm]; omega)
    (by rw [Nat.mul_comm]; omega)

/-- Where every iteration is a sample, the least sample is the least iteration. -/
theorem fastest_of_long {laps : List Lap} {t : ℕ}
    (hlaps : ∀ lap ∈ laps, lap.durations ≠ [] ∧ lap.nanosec = lap.durations.sum)
    (hlong : ∀ lap ∈ laps, ∀ x ∈ lap.durations, 10000 ≤ x)
    (h : IsStatistic .fastest (laps.flatMap Lap.samples) t) :
    IsStatistic .fastest (laps.flatMap Lap.durations) t := by
  obtain ⟨hmem, hle⟩ := h
  have hall : ∀ x ∈ laps.flatMap Lap.durations, t ≤ x := by
    intro x hx
    obtain ⟨lap, hlap, hx⟩ := List.mem_flatMap.mp hx
    refine hle x (List.mem_flatMap.mpr ⟨lap, hlap, ?_⟩)
    rw [Lap.samples_of_long (hlong lap hlap)]
    exact List.mem_append_left _ hx
  refine ⟨?_, hall⟩
  obtain ⟨lap, hlap, ht⟩ := List.mem_flatMap.mp hmem
  rw [Lap.samples_of_long (hlong lap hlap)] at ht
  cases List.mem_append.mp ht with
  | inl ht =>
    exact List.mem_flatMap.mpr ⟨lap, hlap, ht⟩
  | inr ht =>
    -- a least sample that is a mean is also one of the iterations
    obtain ⟨hne, hnanosec⟩ := hlaps lap hlap
    obtain ⟨x, hx, hxle⟩ := exists_le_mean hne
    have hxmem : x ∈ laps.flatMap Lap.durations := List.mem_flatMap.mpr ⟨lap, hlap, hx⟩
    have hteq : t = lap.nanosec / lap.durations.length := List.mem_singleton.mp ht
    rw [hnanosec] at hteq
    have htx : t = x := le_antisymm (hall x hxmem) (hteq ▸ hxle)
    exact htx ▸ hxmem

/-- What `print_stats` makes of the samples of finished rounds. -/
theorem Between.reports {now : ℕ} {l : Laps} (h : Between now l) (hne : l.laps ≠ [])
    (hlt : now < 2 ^ 63) (timetype : TimeType) :
    Reports timetype l.laps (bestTime timetype (sortSamples l.samples)) := by
  have hpast : (l.laps.map Lap.nanosec).sum ≤ now := h.past
  have hstat : IsStatistic timetype l.samples (bestTime timetype (sortSamples l.samples)) := by
    refine bestTime_isStatistic timetype ?_ ?_ ?_
    · obtain ⟨lap, rest, hlaps⟩ := List.exists_cons_of_ne_nil hne
      rw [h.samples_eq, hlaps]
      simp [Lap.samples]
    · have htwice : l.samples.sum ≤ 2 * (l.laps.map Lap.nanosec).sum := by
        rw [h.samples_eq, List.flatMap, List.sum_flatten, List.map_map, ← List.sum_map_mul_left]
        exact List.sum_le_sum fun lap hlap => (Lap.samples_le (h.laps lap hlap).2).1
      omega
    · intro x hx
      rw [h.samples_eq] at hx
      obtain ⟨lap, hlap, hx⟩ := List.mem_flatMap.mp hx
      have hxle := (Lap.samples_le (h.laps lap hlap).2).2 x hx
      have hlaple : lap.nanosec ≤ (l.laps.map Lap.nanosec).sum :=
        List.le_sum_of_mem (List.mem_map_of_mem hlap)
      omega
  generalize bestTime timetype (sortSamples l.samples) = t at hstat ⊢
  rw [h.samples_eq] at hstat
  refine ⟨h.laps, hstat, fun hlong hkind => ?_⟩
  rcases hkind with rfl | ⟨rfl, hone⟩
  · exact fastest_of_long h.laps hlong hstat
  · obtain ⟨lap, hlaps⟩ := List.length_eq_one_iff.mp hone
    have hmem : lap ∈ l.laps := hlaps ▸ List.mem_singleton_self lap
    rw [hlaps, List.flatMap_singleton] at hstat ⊢
    rw [Lap.samples_of_long (hlong lap hmem), (h.laps lap hmem).2] at hstat
    exact hstat.trans (mean_append_mean (h.laps lap hmem).1)

theorem Between.count {now : ℕ} {l : Laps} (h : Between now l) : Between now l.count :=
  ⟨h.samples_eq, h.past, h.laps⟩

section Phases

variable {env : Env σ} {params : LzbenchParams} {inbuf : Mem} {insize : ℕ}
  {param1 param2 workmem : ℕ} {chunkSizes : List ℕ} {time : σ → ℕ} {desc : CompressorDesc σ}

/-- After the compression phase at least one round is finished. -/
theorem compressPhase_between (hclock : CodecClock env time desc) {compress : CompressFunc σ}
    (hcompress : desc.compress = some compress) (comprsize : UInt64) (fuel : ℕ) (compbuf : Mem)
    (w : σ) :
    Ends (fun s => Between (time s.world) s.laps ∧ s.laps.laps ≠ []) (fun _ => True)
      (compressPhase env params inbuf insize param1 param2 workmem chunkSizes compress comprsize
        fuel (compressPhaseInit env compbuf w)) := by
  refine ends_compressPhase (I := fun s => Between (time s.world) s.laps)
    (J := fun s => Within (time s.world) s.laps)
    (K := fun s => Within (time s.world) s.laps ∧ s.laps.lap ≠ [])
    trivial (fun _ _ _ _ => trivial) ?start ?iter (fun _ _ _ => trivial) ?finish fuel ?init
  case init =>
    simp only [compressPhaseInit, hclock.reads, hclock.still]
    exact between_init _
  case start =>
    intro s hs
    simp only [compressStart, hclock.reads, hclock.still]
    exact hs.start (hclock.sleep_le _)
  case iter =>
    intro s r hs hr
    have hin : Within (time s.world) s.laps := hs.elim id And.left
    have hle := time_le_lzbenchCompress (hclock.compress_le compress hcompress) hr
    rw [hclock.still] at hle
    simp only [compressDone, hclock.reads, hclock.still]
    exact hin.tick hle (hclock.lt _)
  case finish =>
    intro s hs
    obtain ⟨hbetween, hne⟩ := hs.1.finish hs.2 (hclock.lt _)
    exact ⟨hbetween.count, hbetween.count, hne⟩

/-- So it is after the decompression phase. -/
theorem decompressPhase_between (hclock : CodecClock env time desc) {decompress : CompressFunc σ}
    (hdecompress : desc.decompress = some decompress) (comprSizes : List ℕ) (compbuf : Mem)
    (fuel : ℕ) (decomp : Mem) (w : σ) :
    Ends (fun s => Between (time s.world) s.laps ∧ s.laps.laps ≠ []) (fun _ => True)
      (decompressPhase env params inbuf insize param1 param2 workmem chunkSizes decompress
        comprSizes compbuf fuel (decompressPhaseInit env decomp w)) := by
  refine ends_decompressPhase (I := fun s => Between (time s.world) s.laps)
    (J := fun s => Within (time s.world) s.laps)
    (K := fun s => Within (time s.world) s.laps ∧ s.laps.lap ≠ [])
    (fun _ _ _ _ => trivial) ?start ?iter ?finish fuel ?init
  case init =>
    simp only [decompressPhaseInit, hclock.reads, hclock.still]
    exact between_init _
  case start =>
    intro s hs
    simp only [decompressStart, hclock.reads, hclock.still]
    exact hs.start (hclock.sleep_le _)
  case iter =>
    intro s hs
    have hin : Within (time s.world) s.laps := hs.elim id And.left
    have hle := time_le_lzbenchDecompress (hclock.decompress_le decompress hdecompress) compbuf
      param1 param2 workmem chunkSizes comprSizes s.decomp (env.getTime s.world).2
    rw [hclock.still] at hle
    simp only [decompressIter, hclock.reads, hclock.still]
    exact hin.tick hle (hclock.lt _)
  case finish =>
    intro s s' hs hs'
    obtain ⟨hbetween, hne⟩ := hs.1.finish hs.2 (hclock.lt _)
    obtain ⟨-, -, hworld, -, -, hlaps⟩ := decompressFinish_ok hs'
    have hlast : Between (time s'.world) s'.laps ∧ s'.laps.laps ≠ [] := by
      rw [hworld]
      rcases hlaps with hlaps | hlaps <;> rw [hlaps]
      · exact ⟨hbetween, hne⟩
      · exact ⟨hbetween.count, hne⟩
    exact ⟨fun _ => hlast.1, hlast⟩

end Phases

/-- The recorded times of a run: the compression time is the statistic of the samples of
its rounds, and so is the decompression time when no error occurred. -/
theorem recordedTimes {env : Env σ} {time : σ → ℕ} {desc : CompressorDesc σ}
    (hclock : CodecClock env time desc) {params : LzbenchParams} {fileSizes : List ℕ} {level : ℤ}
    {inbuf : Mem} {insize : ℕ} {comprsize : UInt64} {param1 fuel : ℕ} {compbuf decomp : Mem} {w : σ}
    {res : TestResult σ} {rep : Report σ}
    (h : lzbenchTest env params fileSizes desc level inbuf insize comprsize param1 fuel compbuf
      decomp w = .ok res) (hrep : res.report = some rep) :
    Reports params.timetype rep.compression.laps.laps rep.row.col2_ctime ∧
      (params.compressOnly = false → rep.decompression.decompError = false →
        Reports params.timetype rep.decompression.laps.laps rep.row.col3_dtime) := by
  obtain ⟨compress, decompress, chunkSizes, workmem, compbuf', w', hcompress, hdecompress, -,
    hrec⟩ := lzbenchTest_recorded h hrep
  have hc := (compressPhase_between hclock hcompress comprsize fuel compbuf' w').ok _
    hrec.compression
  refine ⟨?_, fun honly herror => ?_⟩
  · rw [hrec.row]
    exact hc.1.reports hc.2 (hclock.lt _) params.timetype
  · have hphase := hrec.decompression
    rw [if_neg (by simp [honly])] at hphase
    have hd := (decompressPhase_between hclock hdecompress _ _ fuel decomp _).ok _ hphase
    rw [hrec.row]
    simp only [statRow, herror, Bool.false_eq_true, if_false]
    exact hd.1.reports hd.2 (hclock.lt _) params.timetype

/-! ## A short iteration before a long one -/

/-- A clock that shows the state. -/
def shownEnv : Env ℕ := ⟨fun w => (min w (2 ^ 62), w), id, 0⟩

/-- The codec of runs; its first call takes five microseconds, any later compression two
seconds, and any decompression three. -/
def warmingDesc : CompressorDesc ℕ where
  name := "run"
  version := ""
  firstLevel := 0
  lastLevel := 0
  additionalParam := 0
  maxBlockSize := 0
  compress := some fun a w =>
    { runCompress.call a w with world := if w = 0 then 5000 else w + 2000000000 }
  decompress := some fun a w => { runDecompress.call a w with world := w + 3000000000 }
  init := none
  deinit := none

theorem codecClock_warming : CodecClock shownEnv (fun w => min w (2 ^ 62)) warmingDesc where
  reads _ := rfl
  still _ := rfl
  lt w := lt_of_le_of_lt (Nat.min_le_right w _) (by decide)
  sleep_le _ := le_rfl
  compress_le c hc a w := by
    cases hc
    refine min_le_min_right _ ?_
    change w ≤ if w = 0 then 5000 else w + 2000000000
    split <;> omega
  decompress_le c hc a w := by
    cases hc
    exact min_le_min_right _ (Nat.le_add_right w _)

/-- The run of the codec on three equal bytes, with the default parameters. -/
theorem warming_run :
    ∃ res rep, lzbenchTest shownEnv defaultParams [3] warmingDesc 0 (Mem.ofList [7, 7, 7]) 3
        20000 0 2 (Mem.ofList []) (Mem.ofList []) 0 = .ok res ∧ res.report = some rep ∧
      rep.compression.laps.laps = [⟨[5000, 2000000000], 2000005000⟩] ∧
      rep.decompression.laps.laps = [⟨[3000000000], 3000000000⟩] ∧
      rep.decompression.decompError = false ∧ rep.row.col2_ctime = 1000002500 :=
  ⟨_, _, rfl, rfl, rfl, rfl, rfl, rfl⟩

/-- The fastest iteration took five microseconds and is dropped; the time recorded is
the mean of the round, one second and 2.5 microseconds. -/
theorem fastest_dropped :
    ∃ res rep, lzbenchTest shownEnv defaultParams [3] warmingDesc 0 (Mem.ofList [7, 7, 7]) 3
        20000 0 2 (Mem.ofList []) (Mem.ofList []) 0 = .ok res ∧ res.report = some rep ∧
      rep.compression.laps.laps = [⟨[5000, 2000000000], 2000005000⟩] ∧
      rep.row.col2_ctime = 1000002500 ∧
      ¬ IsStatistic .fastest (rep.compression.laps.laps.flatMap Lap.durations)
        rep.row.col2_ctime := by
  obtain ⟨res, rep, hrun, hrep, hlaps, -, -, htime⟩ := warming_run
  refine ⟨res, rep, hrun, hrep, hlaps, htime, ?_⟩
  rintro ⟨-, hleast⟩
  rw [hlaps, htime] at hleast
  exact absurd (hleast 5000 List.mem_cons_self) (by decide)

/-- The same run: the recorded times are the least of the samples of their rounds. -/
theorem recordedTimes_warming :
    ∃ res rep, lzbenchTest shownEnv defaultParams [3] warmingDesc 0 (Mem.ofList [7, 7, 7]) 3
        20000 0 2 (Mem.ofList []) (Mem.ofList []) 0 = .ok res ∧ res.report = some rep ∧
      Reports .fastest [⟨[5000, 2000000000], 2000005000⟩] rep.row.col2_ctime ∧
      Reports .fastest [⟨[3000000000], 3000000000⟩] rep.row.col3_dtime := by
  obtain ⟨res, rep, hrun, hrep, hc, hd, herror, -⟩ := warming_run
  have htimes := recordedTimes codecClock_warming hrun hrep
  rw [hc, hd] at htimes
  exact ⟨res, rep, hrun, hrep, htimes.1, htimes.2 rfl herror⟩

end Lzbench
