import Lzbench.Chunks
import Lzbench.Decompress
import Lzbench.Print

/-!
# The two measuring loops

`lzbench_test` measures in rounds: rounds of compression until enough iterations and
time have passed, then rounds of decompression, each verified against the input.  A
round repeats the call until the loop time is over; the samples of a round are its
iterations of at least ten microseconds, and one more for the mean of the round.

Both loops keep the same variables, `Laps`.  What the program never reads back is
kept as history beside them: the duration of every iteration, how the last
compression was left, and what every round of decompression wrote.

## Main definitions

* `Env` — the clock and the machine.
* `Laps` — the variables of a measuring loop.
* `compressPhase`, `decompressPhase` — the two measuring loops.
* `ends_compressPhase`, `ends_decompressPhase` — their invariant rules.
-/

namespace Lzbench

open Imperative

/-- What a run asks of the machine.  A clock reading is in nanoseconds; whatever else
may change when the clock is read or the process sleeps is in the state. -/
structure Env (σ : Type) where
  getTime : σ → ℕ × σ
  uniSleep : σ → σ
  /-- What `(uint32_t)` makes of a `float` that the type does not hold. -/
  outOfRange : ℕ

/-- `GetDiffTime`, in nanoseconds modulo `2 ^ 64`. -/
def getDiffTime (start stop : ℕ) : ℕ := subSize stop start

/-! ## Measuring -/

/-- A finished round: the durations of its iterations, and its own time. -/
structure Lap where
  durations : List ℕ
  nanosec : ℕ
  deriving DecidableEq, Repr

/-- The variables of a measuring loop.  `lap` holds the durations of the current
round and `laps` the finished rounds; both are history.  The two counters are an `int` in the
source: a run with `2 ^ 31` iterations is outside of the model. -/
structure Laps where
  samples : List ℕ
  i : ℕ
  totalIters : ℕ
  timerTicks : ℕ
  loopTicks : ℕ
  endTicks : ℕ
  lap : List ℕ
  laps : List Lap
  deriving DecidableEq, Repr

namespace Laps

/-- Before the first round. -/
def init (now : ℕ) : Laps := ⟨[], 0, 0, now, now, now, [], []⟩

/-- A round begins. -/
def start (l : Laps) (now : ℕ) : Laps := { l with i := 0, loopTicks := now, lap := [] }

/-- One iteration was measured; it is a sample if it took ten microseconds. -/
def tick (l : Laps) (startTicks endTicks : ℕ) : Laps :=
  let nanosec := getDiffTime startTicks endTicks
  { l with
    samples := if nanosec ≥ 10000 then l.samples ++ [nanosec] else l.samples
    i := l.i + 1
    endTicks := endTicks
    lap := l.lap ++ [nanosec] }

/-- The time of the round so far. -/
def nanosec (l : Laps) : ℕ := getDiffTime l.loopTicks l.endTicks

/-- The round is over; its mean is a sample. -/
def finish (l : Laps) : Laps :=
  { l with samples := l.samples ++ [l.nanosec / l.i], laps := l.laps ++ [⟨l.lap, l.nanosec⟩] }

/-- The iterations of the round are counted. -/
def count (l : Laps) : Laps := { l with totalIters := l.totalIters + l.i }

/-- The test at the end of the outer loops. -/
def enough (l : Laps) (iters mintime : ℕ) : Bool :=
  l.totalIters ≥ iters ∧ getDiffTime l.timerTicks l.endTicks > mintime * 1000000

end Laps

/-- The samples of a round: its iterations of ten microseconds or more, and its
mean. -/
def Lap.samples (l : Lap) : List ℕ :=
  l.durations.filter (10000 ≤ ·) ++ [l.nanosec / l.durations.length]

namespace Laps

/-- The samples are those of the finished rounds and of the iterations of the current
one, which are counted. -/
structure Sampled (l : Laps) : Prop where
  samples_eq : l.samples = l.laps.flatMap Lap.samples ++ l.lap.filter (10000 ≤ ·)
  i_eq : l.i = l.lap.length

theorem Sampled.tick {l : Laps} (h : l.Sampled) (startTicks endTicks : ℕ) :
    (l.tick startTicks endTicks).Sampled := by
  constructor
  · simp only [Laps.tick, h.samples_eq, List.filter_append, List.filter_singleton]
    by_cases hlong : getDiffTime startTicks endTicks ≥ 10000
    · simp [hlong]
    · simp [hlong]
  · simp [Laps.tick, h.i_eq]

/-- Between rounds the samples are those of the finished rounds. -/
theorem Sampled.finish {l : Laps} (h : l.Sampled) :
    l.finish.samples = l.finish.laps.flatMap Lap.samples := by
  simp [Laps.finish, h.samples_eq, h.i_eq, Lap.samples]

theorem sampled_start {l : Laps} (h : l.samples = l.laps.flatMap Lap.samples) (now : ℕ) :
    (l.start now).Sampled := by
  constructor <;> simp [Laps.start, h]

end Laps

/-! ## Compression -/

/-- The variables of the compression phase.  `aborted` is history: how the last
`lzbench_compress` was left. -/
structure CompressPhase (σ : Type) where
  comprSizes : List ℕ
  compbuf : Mem
  complen : ℤ
  aborted : Bool
  laps : Laps
  world : σ

/-- How the compression phase ends before its last round: the run stops, or the
compressor was too slow and `lzbench_test` returns. -/
inductive CompressExit (σ : Type)
  | stop (e : Stop)
  | tooSlow (s : CompressPhase σ)

/-- `speed = (float)insize*i*1000/nanosec`. -/
def speedOf (insize i nanosec : ℕ) : FloatVal :=
  FloatVal.div floatBits
    (roundBits floatBits (roundBits floatBits (roundBits floatBits insize *
      roundBits floatBits i) * 1000))
    (roundBits floatBits nanosec)

section Phases

variable {σ : Type} (env : Env σ) (params : LzbenchParams) (inbuf : Mem) (insize : ℕ)
  (param1 param2 workmem : ℕ) (chunkSizes : List ℕ)

/-- The call `r` was measured, between two readings of the clock. -/
def compressDone (s : CompressPhase σ) (r : CompressResult σ) : CompressPhase σ :=
  let startTicks := env.getTime s.world
  let endTicks := env.getTime r.world
  ⟨r.comprSizes, r.outbuf, r.ret, r.aborted, s.laps.tick startTicks.1 endTicks.1, endTicks.2⟩

/-- One iteration of the compression loop. -/
def compressIter (compress : CompressFunc σ) (comprsize : UInt64) (s : CompressPhase σ) :
    Except (CompressExit σ) (CompressPhase σ) :=
  match lzbenchCompress compress inbuf param1 param2 workmem chunkSizes s.comprSizes s.compbuf
      comprsize (env.getTime s.world).2 with
  | .error e => .error (.stop e)
  | .ok r => .ok (compressDone env s r)

/-- A round begins: the process sleeps, then the loop clock starts. -/
def compressStart (s : CompressPhase σ) : CompressPhase σ :=
  let loopTicks := env.getTime (env.uniSleep s.world)
  { s with laps := s.laps.start loopTicks.1, world := loopTicks.2 }

/-- What follows the iterations of a round: its mean is a sample, and a compressor
below the speed asked for ends the run. -/
def compressFinish (s : CompressPhase σ) : Except (CompressExit σ) (CompressPhase σ) :=
  let s' := { s with laps := s.laps.finish }
  let speed := ((speedOf insize s.laps.i s.laps.nanosec).toNat? (2 ^ 32)).getD env.outOfRange
  if speed < params.cspeed then .error (.tooSlow s') else .ok { s' with laps := s'.laps.count }

/-- The compression phase, from the state in which its timer was started. -/
def compressPhase (compress : CompressFunc σ) (comprsize : UInt64) (fuel : ℕ)
    (s : CompressPhase σ) : Except (CompressExit σ) (CompressPhase σ) :=
  doWhile (fun _ => .stop .hang)
    (fun s => do
      let s ← doWhile (fun _ => .stop .hang)
        (compressIter env inbuf param1 param2 workmem chunkSizes compress comprsize)
        (fun s => s.laps.nanosec < params.cloopTime) fuel (compressStart env s)
      compressFinish env params insize s)
    (fun s => !s.laps.enough params.cIters params.cmintime) fuel s

/-! ## Decompression -/

/-- One round of decompression, as the history keeps it: the output buffer when the
round began and when it was verified, what was written in between, and the length
that the last call returned. -/
structure Round where
  entry : Mem
  writes : List Write
  left : Mem
  decomplen : ℤ

/-- The variables of the decompression phase.  `entry` and `writes` belong to the
current round; they and `rounds` are history. -/
structure DecompressPhase (σ : Type) where
  decomp : Mem
  decomplen : ℤ
  decompError : Bool
  laps : Laps
  world : σ
  entry : Mem
  writes : List Write
  rounds : List Round

/-- One iteration of the decompression loop. -/
def decompressIter (decompress : CompressFunc σ) (comprSizes : List ℕ) (compbuf : Mem)
    (s : DecompressPhase σ) : DecompressPhase σ :=
  let startTicks := env.getTime s.world
  let r := lzbenchDecompress decompress compbuf param1 param2 workmem chunkSizes comprSizes
    s.decomp startTicks.2
  let endTicks := env.getTime r.world
  { s with
    decomp := r.outbuf
    decomplen := r.ret
    laps := s.laps.tick startTicks.1 endTicks.1
    world := endTicks.2
    writes := s.writes ++ r.writes }

/-- A round begins. -/
def decompressStart (s : DecompressPhase σ) : DecompressPhase σ :=
  let loopTicks := env.getTime (env.uniSleep s.world)
  { s with laps := s.laps.start loopTicks.1, world := loopTicks.2, entry := s.decomp, writes := [] }

/-- What follows the iterations of a round: the length and the bytes are compared
with the input, and the output is cleared.  An error found ends the loop, as `break`
does. -/
def decompressFinish (s : DecompressPhase σ) :
    Except (Stop × DecompressPhase σ) (DecompressPhase σ) :=
  let lengthError : Bool := insize ≠ toSize s.decomplen
  let bytesError : Bool := ¬ Mem.SameBytes inbuf 0 s.decomp 0 insize
  if bytesError ∧ params.verbose ≥ 10 then .error (.exitFailure, s)
  else
    let s' := { s with
      laps := s.laps.finish
      decompError := s.decompError || lengthError || bytesError
      decomp := s.decomp.fill 0 0 insize
      rounds := s.rounds ++ [⟨s.entry, s.writes, s.decomp, s.decomplen⟩] }
    if s'.decompError then .ok s' else .ok { s' with laps := s'.laps.count }

/-- The decompression phase, from the state in which its timer was started.  A run that
stops keeps the state it stopped in. -/
def decompressPhase (decompress : CompressFunc σ) (comprSizes : List ℕ) (compbuf : Mem)
    (fuel : ℕ) (s : DecompressPhase σ) : Except (Stop × DecompressPhase σ) (DecompressPhase σ) :=
  doWhile (fun s => (.hang, s))
    (fun s => do
      let s ← doWhile (fun s => (.hang, s))
        (fun s => .ok (decompressIter env param1 param2 workmem chunkSizes decompress comprSizes
          compbuf s))
        (fun s => s.laps.nanosec < params.dloopTime) fuel (decompressStart env s)
      decompressFinish params inbuf insize s)
    (fun s => !s.decompError && !s.laps.enough params.dIters params.dmintime) fuel s

end Phases

/-! ## Invariant rules -/

section Rules

variable {σ : Type} {env : Env σ} {params : LzbenchParams} {inbuf : Mem} {insize : ℕ}
  {param1 param2 workmem : ℕ} {chunkSizes : List ℕ}

/-- The compression phase keeps an invariant of its rounds.  `I` holds when a round
begins, `J` before its first iteration and `K` after every iteration; `Q` holds when
the phase ends. -/
theorem ends_compressPhase {compress : CompressFunc σ} {comprsize : UInt64}
    {I J K Q : CompressPhase σ → Prop} {E : CompressExit σ → Prop}
    (hhang : E (.stop .hang))
    (hthrow : ∀ s e, J s ∨ K s → lzbenchCompress compress inbuf param1 param2 workmem chunkSizes
      s.comprSizes s.compbuf comprsize (env.getTime s.world).2 = .error e → E (.stop e))
    (hstart : ∀ s, I s → J (compressStart env s))
    (hiter : ∀ s r, J s ∨ K s → lzbenchCompress compress inbuf param1 param2 workmem chunkSizes
      s.comprSizes s.compbuf comprsize (env.getTime s.world).2 = .ok r → K (compressDone env s r))
    (hslow : ∀ s, K s → 0 < params.cspeed → E (.tooSlow { s with laps := s.laps.finish }))
    (hfinish : ∀ s, K s → I { s with laps := s.laps.finish.count } ∧
      Q { s with laps := s.laps.finish.count })
    (fuel : ℕ) {s : CompressPhase σ} (h0 : I s) :
    Ends Q E (compressPhase env params inbuf insize param1 param2 workmem chunkSizes compress
      comprsize fuel s) := by
  refine ends_doWhile_of_body (I := I) (fun _ _ => hhang) (fun s hs => ?_) fuel h0
  have hinner : Ends K E (doWhile (fun _ => .stop .hang)
      (compressIter env inbuf param1 param2 workmem chunkSizes compress comprsize)
      (fun s => s.laps.nanosec < params.cloopTime) fuel (compressStart env s)) := by
    refine ends_doWhile_of_body (I := fun s => J s ∨ K s) (fun _ _ => hhang) (fun s hs => ?_) fuel
      (Or.inl (hstart s hs))
    simp only [compressIter]
    cases hr : lzbenchCompress compress inbuf param1 param2 workmem chunkSizes s.comprSizes
        s.compbuf comprsize (env.getTime s.world).2 with
    | error e => exact (ends_error _ E _).mpr (hthrow s e hs hr)
    | ok r =>
      have hk := hiter s r hs hr
      exact (ends_ok _ E _).mpr ⟨Or.inr hk, hk⟩
  apply hinner.bind
  intro s hs
  by_cases hlt : ((speedOf insize s.laps.i s.laps.nanosec).toNat? (2 ^ 32)).getD env.outOfRange <
      params.cspeed
  · rw [compressFinish, if_pos hlt]
    exact (ends_error _ E _).mpr (hslow s hs (Nat.zero_lt_of_lt hlt))
  · rw [compressFinish, if_neg hlt]
    exact (ends_ok _ E _).mpr (hfinish s hs)

/-- What a finished round leaves, whether it found an error or not. -/
theorem decompressFinish_ok {s s' : DecompressPhase σ}
    (h : decompressFinish params inbuf insize s = .ok s') :
    s'.decompError = (s.decompError || decide (insize ≠ toSize s.decomplen) ||
        decide (¬ Mem.SameBytes inbuf 0 s.decomp 0 insize)) ∧
      s'.decomp = s.decomp.fill 0 0 insize ∧ s'.world = s.world ∧ s'.entry = s.entry ∧
      s'.rounds = s.rounds ++ [⟨s.entry, s.writes, s.decomp, s.decomplen⟩] ∧
      (s'.laps = s.laps.finish ∨ s'.laps = s.laps.finish.count) := by
  simp only [decompressFinish] at h
  split at h
  · cases h
  · split at h
    · cases h
      exact ⟨rfl, rfl, rfl, rfl, rfl, Or.inl rfl⟩
    · cases h
      exact ⟨rfl, rfl, rfl, rfl, rfl, Or.inr rfl⟩

/-- The decompression phase keeps an invariant of its rounds; the predicates are used
as in `ends_compressPhase`.  A round that found an error is the last one.  Nothing is
thrown. -/
theorem ends_decompressPhase {decompress : CompressFunc σ} {comprSizes : List ℕ} {compbuf : Mem}
    {I J K Q : DecompressPhase σ → Prop} {E : Stop × DecompressPhase σ → Prop}
    (hstop : ∀ e s, e ≠ .lengthError → I s ∨ J s ∨ K s → E (e, s))
    (hstart : ∀ s, I s → J (decompressStart env s))
    (hiter : ∀ s, J s ∨ K s → K (decompressIter env param1 param2 workmem chunkSizes decompress
      comprSizes compbuf s))
    (hfinish : ∀ s s', K s → decompressFinish params inbuf insize s = .ok s' →
      (s'.decompError = false → I s') ∧ Q s')
    (fuel : ℕ) {s : DecompressPhase σ} (h0 : I s) :
    Ends Q E (decompressPhase env params inbuf insize param1 param2 workmem chunkSizes decompress
      comprSizes compbuf fuel s) := by
  refine ends_doWhile (I := I) (fun s hs => hstop _ s (by decide) (Or.inl hs)) (fun s hs => ?_)
    fuel h0
  have hinner : Ends K E (doWhile (fun s => (.hang, s))
      (fun s => .ok (decompressIter env param1 param2 workmem chunkSizes decompress comprSizes
        compbuf s))
      (fun s => s.laps.nanosec < params.dloopTime) fuel (decompressStart env s)) := by
    refine ends_doWhile_of_body (I := fun s => J s ∨ K s)
      (fun s hs => hstop _ s (by decide) (Or.inr hs)) (fun s hs => ?_) fuel (Or.inl (hstart s hs))
    exact (ends_ok _ E _).mpr ⟨Or.inr (hiter s hs), hiter s hs⟩
  apply hinner.bind
  intro s hs
  cases hfin : decompressFinish params inbuf insize s with
  | error e =>
    have he : e = (.exitFailure, s) := by
      simp only [decompressFinish] at hfin
      split_ifs at hfin
      exact (Except.error.inj hfin).symm
    exact (ends_error _ E _).mpr (he ▸ hstop _ s (by decide) (Or.inr (Or.inr hs)))
  | ok s' =>
    obtain ⟨hnext, hlast⟩ := hfinish s s' hs hfin
    refine (ends_ok _ E _).mpr ?_
    by_cases hag : (!s'.decompError && !s'.laps.enough params.dIters params.dmintime) = true
    · rw [if_pos hag]
      rw [Bool.and_eq_true, Bool.not_eq_true'] at hag
      exact hnext hag.1
    · rw [if_neg hag]
      exact hlast

end Rules

end Lzbench
