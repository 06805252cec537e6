import Lzbench.Abort

/-!
# Rows do not depend on what was benchmarked before

All runs on an input share the compressed and the decompressed buffer, and each leaves
its own bytes behind.  Two different histories therefore give a run two different pairs
of buffers, and two different clocks any numbers of repetitions.  Under a codec that is
a function, the run records the same size and the same verdict after both.

## Main definitions

* `TestCall`, `runTests` — a call of `lzbench_test`, and a sequence of them.
* `rows_independent` — the two-run property.
-/

namespace Lzbench

open Imperative

variable {σ : Type}

/-- The arguments that tell one call of `lzbench_test` on an input from another. -/
structure TestCall (σ : Type) where
  params : LzbenchParams
  fileSizes : List ℕ
  desc : CompressorDesc σ
  level : ℤ
  comprsize : UInt64
  param1 : ℕ

/-- What the calls share and change: the buffers and `params->results`. -/
structure Buffers (σ : Type) where
  compbuf : Mem
  decomp : Mem
  results : List StringTable
  world : σ

/-- The call on the shared buffers. -/
def TestCall.run (env : Env σ) (inbuf : Mem) (insize fuel : ℕ) (call : TestCall σ)
    (s : Buffers σ) : Except Fault (TestResult σ) :=
  lzbenchTest env { call.params with results := s.results } call.fileSizes call.desc call.level
    inbuf insize call.comprsize call.param1 fuel s.compbuf s.decomp s.world

/-- The buffers as a call leaves them. -/
def TestResult.buffers (res : TestResult σ) : Buffers σ :=
  ⟨res.compbuf, res.decomp, res.results, res.world⟩

/-- A sequence of calls. -/
def runTests (env : Env σ) (inbuf : Mem) (insize fuel : ℕ) (calls : List (TestCall σ))
    (s : Buffers σ) : Except Fault (Buffers σ) :=
  calls.foldlM (fun s call => (call.run env inbuf insize fuel s).map TestResult.buffers) s

theorem ends_run_genuine {env : Env σ} {inbuf : Mem} {insize fuel : ℕ} {call : TestCall σ}
    {s : Buffers σ} (hzero : s.decomp.Zeroed insize) :
    Ends (Genuine { call.params with results := s.results } inbuf insize)
      (fun f => ∀ m ∈ f.entries, Mem.Zeroed m insize)
      (call.run env inbuf insize fuel s) :=
  ends_lzbenchTest_genuine hzero

/-- Whatever was benchmarked, the output buffer is clear again. -/
theorem runTests_zeroed {env : Env σ} {inbuf : Mem} {insize fuel : ℕ} {calls : List (TestCall σ)}
    {s s' : Buffers σ} (hzero : s.decomp.Zeroed insize)
    (h : runTests env inbuf insize fuel calls s = .ok s') : s'.decomp.Zeroed insize := by
  have hrun : Ends (fun s : Buffers σ => s.decomp.Zeroed insize) (fun _ => True)
      (runTests env inbuf insize fuel calls s) := by
    refine ends_foldlM (fun _ (s : Buffers σ) => s.decomp.Zeroed insize) calls hzero ?_
    intro done call rest s _ hs
    have htest : Ends (fun res => res.decomp.Zeroed insize) (fun _ => True)
        (call.run env inbuf insize fuel s) :=
      (ends_run_genuine hs).mono (fun _ hres => hres.decomp_zero) fun _ _ => trivial
    exact htest.map fun _ hres => hres
  exact hrun.ok s' h

/-- What is compared of two runs: the compressed size and the verdict of the row, if one
was recorded. -/
def TestResult.recorded (res : TestResult σ) : Option (ℕ × Bool) :=
  res.report.map fun rep => (rep.row.col4_comprsize, rep.decompression.decompError)

/-- A call on a clear buffer records what the codec and the input determine. -/
theorem TestCall.recorded_eq {F : CodecFn} {call : TestCall σ} (hF : Implements F call.desc)
    (hspeed : call.params.cspeed = 0) {env : Env σ} {inbuf : Mem} {insize fuel : ℕ}
    {s : Buffers σ} (hzero : s.decomp.Zeroed insize) {res : TestResult σ}
    (h : call.run env inbuf insize fuel s = .ok res) :
    res.recorded =
      if call.desc.compress = none ∨ call.desc.decompress = none then none
      else
        (splitFiles (effectiveChunkSize call.params.chunkSize insize call.desc.maxBlockSize)
          call.fileSizes).map fun chunkSizes =>
            let param2 := toSize call.desc.additionalParam
            (toSize (storeOf F call.param1 param2 inbuf call.comprsize chunkSizes).ret,
              !call.params.compressOnly && !decide (Reproduces inbuf insize
                (decodedOf F call.param1 param2 inbuf call.comprsize chunkSizes))) := by
  rcases lzbenchTest_returned h with hnone | ⟨compress, decompress, chunkSizes, workmem, compbuf,
    w, rep, hc, hd, hchunks, hrec⟩
  · rw [TestResult.recorded, hnone.report_eq, if_pos (hnone.missing hspeed)]
    rfl
  · obtain ⟨-, hsize, herror⟩ := hrec.outcome hF hc hd hzero
    rw [TestResult.recorded, hrec.report_eq, if_neg (by simp [hc, hd]), hchunks]
    simp only [Option.map_some, hsize, herror]

/-- Two runs of one call, on any clear buffers, after any earlier calls and by any
clocks, record the same compressed size and the same verdict. -/
theorem rows_independent {F : CodecFn} {call : TestCall σ} (hF : Implements F call.desc)
    (hspeed : call.params.cspeed = 0) {inbuf : Mem} {insize : ℕ} {env₁ env₂ : Env σ}
    {fuel₁ fuel₂ : ℕ} {earlier₁ earlier₂ : List (TestCall σ)} {start₁ start₂ s₁ s₂ : Buffers σ}
    (hstart₁ : start₁.decomp.Zeroed insize) (hstart₂ : start₂.decomp.Zeroed insize)
    (hearlier₁ : runTests env₁ inbuf insize fuel₁ earlier₁ start₁ = .ok s₁)
    (hearlier₂ : runTests env₂ inbuf insize fuel₂ earlier₂ start₂ = .ok s₂)
    {res₁ res₂ : TestResult σ} (hrun₁ : call.run env₁ inbuf insize fuel₁ s₁ = .ok res₁)
    (hrun₂ : call.run env₂ inbuf insize fuel₂ s₂ = .ok res₂) :
    res₁.recorded = res₂.recorded :=
  (call.recorded_eq hF hspeed (runTests_zeroed hstart₁ hearlier₁) hrun₁).trans
    (call.recorded_eq hF hspeed (runTests_zeroed hstart₂ hearlier₂) hrun₂).symm

/-- The codec of runs on an input of four bytes, cut into chunks of `chunkSize`. -/
def warmingCall (chunkSize : ℕ) : TestCall ℕ :=
  ⟨{ defaultParams with chunkSize := chunkSize }, [4], warmingDesc, 0, 20000, 0⟩

/-- A first run, and one by a later clock after two others over a dirty buffer: both
record two bytes. -/
theorem rows_independent_warming :
    ∃ s₁ s₂ res₁ res₂,
      runTests shownEnv (Mem.ofList [7, 7, 7, 7]) 4 2 [] ⟨Mem.ofList [], Mem.ofList [], [], 0⟩ =
        .ok s₁ ∧
      runTests shownEnv (Mem.ofList [7, 7, 7, 7]) 4 2 [warmingCall 3, warmingCall 4]
        ⟨Mem.ofList [9, 9, 9], Mem.ofList [0, 0, 0, 0, 4], [], 77⟩ = .ok s₂ ∧
      (warmingCall 2).run shownEnv (Mem.ofList [7, 7, 7, 7]) 4 2 s₁ = .ok res₁ ∧
      (warmingCall 2).run shownEnv (Mem.ofList [7, 7, 7, 7]) 4 2 s₂ = .ok res₂ ∧
      res₁.recorded = some (2, false) ∧ res₁.recorded = res₂.recorded := by
  have hruns : ∃ s₁ s₂ res₁ res₂,
      runTests shownEnv (Mem.ofList [7, 7, 7, 7]) 4 2 [] ⟨Mem.ofList [], Mem.ofList [], [], 0⟩ =
        .ok s₁ ∧
      runTests shownEnv (Mem.ofList [7, 7, 7, 7]) 4 2 [warmingCall 3, warmingCall 4]
        ⟨Mem.ofList [9, 9, 9], Mem.ofList [0, 0, 0, 0, 4], [], 77⟩ = .ok s₂ ∧
      (warmingCall 2).run shownEnv (Mem.ofList [7, 7, 7, 7]) 4 2 s₁ = .ok res₁ ∧
      (warmingCall 2).run shownEnv (Mem.ofList [7, 7, 7, 7]) 4 2 s₂ = .ok res₂ ∧
      res₁.recorded = some (2, false) :=
    ⟨_, _, _, _, rfl, rfl, rfl, rfl, rfl⟩
  obtain ⟨s₁, s₂, res₁, res₂, hearlier₁, hearlier₂, hrun₁, hrun₂, hrec⟩ := hruns
  have hstart₁ : Mem.Zeroed (Mem.ofList []) 4 := show ∀ p < 4, Mem.ofList [] p = 0 by decide
  have hstart₂ : Mem.Zeroed (Mem.ofList [0, 0, 0, 0, 4]) 4 :=
    show ∀ p < 4, Mem.ofList [0, 0, 0, 0, 4] p = 0 by decide
  refine ⟨s₁, s₂, res₁, res₂, hearlier₁, hearlier₂, hrun₁, hrun₂, hrec, ?_⟩
  exact rows_independent implements_warming rfl hstart₁ hstart₂ hearlier₁ hearlier₂ hrun₁ hrun₂

end Lzbench
