import Lzbench.Test

/-!
# Verification is not fooled by stale output

The decoder writes into one buffer that every round and every run shares.  The program
clears the part it compares after every round, and the buffer is allocated clear, so a
byte of the input that is found in the output of a round was put there by a call of
that round, unless it is zero.

The decoder is arbitrary.  Every call hands the buffer on: `Connects` says that the
writes of a round lead from the buffer it began with to the one it was verified with.

## Main definitions

* `Connects` — a sequence of writes leads from one buffer to another.
* `Round.Genuine` — a verified round wrote what it was verified with.
* `ends_lzbenchTest_genuine` — every run clears the buffer, and its rounds are genuine.
-/

namespace Lzbench

open Imperative

variable {σ : Type}

/-! ## Writes -/

/-- The writes lead from `m` to `m'`, each from where the one before it left. -/
def Connects (m : Mem) (writes : List Write) (m' : Mem) : Prop :=
  match writes with
  | [] => m' = m
  | x :: rest => x.before = m ∧ Connects x.after rest m'

theorem Connects.append {m m' m'' : Mem} {xs ys : List Write} (h : Connects m xs m')
    (h' : Connects m' ys m'') : Connects m (xs ++ ys) m'' := by
  induction xs generalizing m with
  | nil =>
    obtain rfl : m' = m := h
    exact h'
  | cons x xs ih => exact ⟨h.1, ih h.2⟩

/-- A byte that is there at the end and was not at the beginning was written. -/
theorem Connects.exists_write {m m' : Mem} {writes : List Write} (h : Connects m writes m')
    {p : ℕ} {v : UInt8} (hold : m p ≠ v) (hnew : m' p = v) :
    ∃ x ∈ writes, x.before p ≠ v ∧ x.after p = v := by
  induction writes generalizing m with
  | nil =>
    obtain rfl : m' = m := h
    exact absurd hnew hold
  | cons x rest ih =>
    obtain ⟨rfl, hrest⟩ := h
    by_cases hx : x.after p = v
    · exact ⟨x, List.mem_cons_self, hold, hx⟩
    · obtain ⟨y, hy, hwrote⟩ := ih hrest hx
      exact ⟨y, List.mem_cons_of_mem _ hy, hwrote⟩

/-- The writes of one decompression call lead from its buffer to the one it leaves. -/
theorem connects_lzbenchDecompress (decompress : CompressFunc σ) (inbuf : Mem)
    (param1 param2 workmem : ℕ) (chunkSizes comprSizes : List ℕ) (outbuf : Mem) (w : σ) :
    Connects outbuf
      (lzbenchDecompress decompress inbuf param1 param2 workmem chunkSizes comprSizes outbuf
        w).writes
      (lzbenchDecompress decompress inbuf param1 param2 workmem chunkSizes comprSizes outbuf
        w).outbuf := by
  refine lzbenchDecompress_of_run _ _ _ _ _ (I := fun s => Connects outbuf s.writes s.outbuf)
    (J := fun e => Connects outbuf e.2.writes e.2.outbuf)
    (P := fun r => Connects outbuf r.writes r.outbuf) ?_ (fun _ hs => hs) (fun _ hs => hs)
  refine ends_foldlM (fun _ (s : DecompressState σ) => Connects outbuf s.writes s.outbuf) _ rfl ?_
  intro done entry rest s _ hs
  have hwrote : Connects outbuf (s.wrote (entry.1 = entry.2) entry.2
      (decompressChunk decompress inbuf param1 param2 workmem s entry.1 entry.2)).writes
      (s.wrote (entry.1 = entry.2) entry.2
        (decompressChunk decompress inbuf param1 param2 workmem s entry.1 entry.2)).outbuf :=
    hs.append ⟨rfl, rfl⟩
  exact ends_decompressStep _ _ _ _ _ rfl (fun _ => hwrote) (fun _ => hwrote)

/-! ## Rounds -/

/-- The round began on a clear buffer, and its writes made what it was verified with. -/
structure Round.Clear (insize : ℕ) (r : Round) : Prop where
  entry_zero : r.entry.Zeroed insize
  connects : Connects r.entry r.writes r.left

/-- The round was verified: the length and the bytes are those of the input. -/
structure Round.Verified (inbuf : Mem) (insize : ℕ) (r : Round) : Prop where
  length_eq : toSize r.decomplen = insize
  bytes_eq : Mem.SameBytes inbuf 0 r.left 0 insize

/-- The round's last total is the size of the input, and every byte of the input that is
not zero was put into the buffer by a write of the round. -/
structure Round.Genuine (inbuf : Mem) (insize : ℕ) (r : Round) : Prop where
  length_eq : toSize r.decomplen = insize
  wrote : ∀ p < insize, inbuf p ≠ 0 →
    ∃ x ∈ r.writes, x.before p ≠ inbuf p ∧ x.after p = inbuf p

theorem Round.Verified.genuine {inbuf : Mem} {insize : ℕ} {r : Round}
    (h : r.Verified inbuf insize) (hclear : r.Clear insize) : r.Genuine inbuf insize where
  length_eq := h.length_eq
  wrote := by
    intro p hp hne
    refine hclear.connects.exists_write ?_ ?_
    · rw [hclear.entry_zero p hp]
      exact hne.symm
    · have heq := h.bytes_eq p hp
      rw [Nat.zero_add] at heq
      exact heq.symm

/-! ## Runs -/

section Runs

variable {env : Env σ} {params : LzbenchParams} {fileSizes : List ℕ} {desc : CompressorDesc σ}
  {level : ℤ} {inbuf : Mem} {insize : ℕ} {comprsize : UInt64} {param1 fuel : ℕ}
  {compbuf decomp : Mem} {w : σ}

/-- The rounds so far, and the buffer as the current one found it. -/
structure Rounds (inbuf : Mem) (insize : ℕ) (s : DecompressPhase σ) : Prop where
  entry_zero : s.entry.Zeroed insize
  clear : ∀ r ∈ s.rounds, r.Clear insize
  verified : s.decompError = false → ∀ r ∈ s.rounds, r.Verified inbuf insize

/-- What a round that is over adds. -/
theorem Rounds.finish {s s' : DecompressPhase σ} (h : Rounds inbuf insize s)
    (hconnects : Connects s.entry s.writes s.decomp)
    (hs' : decompressFinish params inbuf insize s = .ok s') :
    Rounds inbuf insize s' ∧ s'.decomp.Zeroed insize ∧ s'.rounds ≠ [] := by
  obtain ⟨herror, hdecomp, -, hentry, hrounds, -⟩ := decompressFinish_ok hs'
  refine ⟨⟨hentry ▸ h.entry_zero, fun r hr => ?_, fun hfalse r hr => ?_⟩, ?_, ?_⟩
  · rw [hrounds] at hr
    cases List.mem_append.mp hr with
    | inl hr =>
      exact h.clear r hr
    | inr hr =>
      obtain rfl := List.mem_singleton.mp hr
      exact ⟨h.entry_zero, hconnects⟩
  · rw [hrounds] at hr
    simp only [hfalse, Bool.false_eq, Bool.or_eq_false_iff, decide_eq_false_iff_not,
      not_not] at herror
    cases List.mem_append.mp hr with
    | inl hr =>
      exact h.verified herror.1.1 r hr
    | inr hr =>
      obtain rfl := List.mem_singleton.mp hr
      exact ⟨herror.1.2.symm, herror.2⟩
  · rw [hdecomp]
    exact Mem.zeroed_fill s.decomp insize
  · rw [hrounds]
    simp

/-- The decompression phase from a clear buffer. -/
theorem decompressPhase_rounds {decompress : CompressFunc σ} {param2 workmem : ℕ}
    {chunkSizes comprSizes : List ℕ} {buf : Mem} (hzero : decomp.Zeroed insize) :
    Ends (fun s => Rounds inbuf insize s ∧ s.decomp.Zeroed insize ∧ s.rounds ≠ [])
      (fun e => Rounds inbuf insize e.2)
      (decompressPhase env params inbuf insize param1 param2 workmem chunkSizes decompress
        comprSizes buf fuel (decompressPhaseInit env decomp w)) := by
  refine ends_decompressPhase (I := fun s => Rounds inbuf insize s ∧ s.decomp.Zeroed insize)
    (J := fun s => Rounds inbuf insize s ∧ Connects s.entry s.writes s.decomp)
    (K := fun s => Rounds inbuf insize s ∧ Connects s.entry s.writes s.decomp)
    ?stop ?start ?iter ?finish fuel ?init
  case init =>
    exact ⟨⟨hzero, by simp [decompressPhaseInit], by simp [decompressPhaseInit]⟩, hzero⟩
  case stop =>
    rintro e s - (hs | hs | hs) <;> exact hs.1
  case start => exact fun s hs => ⟨⟨hs.2, hs.1.clear, hs.1.verified⟩, rfl⟩
  case iter =>
    intro s hs
    obtain ⟨hrounds, hconnects⟩ := hs.elim id id
    exact ⟨⟨hrounds.entry_zero, hrounds.clear, hrounds.verified⟩,
      hconnects.append (connects_lzbenchDecompress _ _ _ _ _ _ _ _ _)⟩
  case finish =>
    intro s s' hs hs'
    obtain ⟨hrounds, hdecomp, hne⟩ := hs.1.finish hs.2 hs'
    exact ⟨fun _ => ⟨hrounds, hdecomp⟩, hrounds, hdecomp, hne⟩

/-- What a run that began on a clear buffer leaves: the buffer is clear again, every
round began on it clear, and where no error was found every round is genuine. -/
structure Genuine (params : LzbenchParams) (inbuf : Mem) (insize : ℕ) (res : TestResult σ) :
    Prop where
  decomp_zero : res.decomp.Zeroed insize
  entries : ∀ rep, res.report = some rep → ∀ r ∈ rep.decompression.rounds, r.entry.Zeroed insize
  rounds : ∀ rep, res.report = some rep → params.compressOnly = false →
    rep.decompression.decompError = false → rep.decompression.rounds ≠ [] ∧
      ∀ r ∈ rep.decompression.rounds, r.Genuine inbuf insize

/-- Every run on a clear buffer. -/
theorem ends_lzbenchTest_genuine (hzero : decomp.Zeroed insize) :
    Ends (Genuine params inbuf insize) (fun f => ∀ m ∈ f.entries, Mem.Zeroed m insize)
      (lzbenchTest env params fileSizes desc level inbuf insize comprsize param1 fuel compbuf
        decomp w) := by
  refine ends_lzbenchTest ?none ?row (by simp) (by simp) ?fault
  case none =>
    intro res hres
    refine ⟨hres.decomp_eq ▸ hzero, fun rep hrep => ?_, fun rep hrep => ?_⟩ <;>
      simp [hres.report_eq] at hrep
  case row =>
    intro compress decompress chunkSizes workmem compbuf' w' rep res _ _ _ hrec
    have hphase := hrec.decompression
    by_cases honly : params.compressOnly = true
    · rw [if_pos honly] at hphase
      refine ⟨?_, fun rep' hrep => ?_, fun rep' hrep hfalse => ?_⟩
      · rw [hrec.decomp_eq, hphase]
        exact hzero
      · obtain rfl : rep = rep' := Option.some.inj (hrec.report_eq.symm.trans hrep)
        simp [hphase, decompressPhaseInit]
      · simp [honly] at hfalse
    · rw [if_neg honly] at hphase
      obtain ⟨hrounds, hdecomp, hne⟩ := (decompressPhase_rounds hzero).ok _ hphase
      refine ⟨hrec.decomp_eq ▸ hdecomp, fun rep' hrep => ?_, fun rep' hrep _ herror => ?_⟩
      · obtain rfl : rep = rep' := Option.some.inj (hrec.report_eq.symm.trans hrep)
        exact fun r hr => (hrounds.clear r hr).entry_zero
      · obtain rfl : rep = rep' := Option.some.inj (hrec.report_eq.symm.trans hrep)
        exact ⟨hne, fun r hr => (hrounds.verified herror r hr).genuine (hrounds.clear r hr)⟩
  case fault =>
    intro decompress chunkSizes workmem c e d _ hphase m hm
    have hrounds := (decompressPhase_rounds hzero).error _ hphase
    cases List.mem_append.mp hm with
    | inl hm =>
      obtain ⟨r, hr, rfl⟩ := List.mem_map.mp hm
      exact (hrounds.clear r hr).entry_zero
    | inr hm =>
      exact List.mem_singleton.mp hm ▸ hrounds.entry_zero

end Runs

end Lzbench
