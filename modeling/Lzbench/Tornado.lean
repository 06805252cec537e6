import Lzbench.Codec
import Lzbench.Lib.Loop
import Mathlib.Algebra.BigOperators.Group.List.Basic

/-!
# Tornado in memory

The coder of tornado hands its output to a callback, block by block, and takes every result
that is not negative for a success.  The callback of the memory wrapper returns 0 for a block
that does not fit, which is one, so the coder goes on and later blocks that do fit are stored
behind the gap.  The wrapper then returns the position it has come to.

The coder is a parameter: what it makes of a method and an input is a sequence of writes.

## Main definitions

* `PackMethod`, `stdTornadoMethod`, `secondTornadoMethod`, `torMethod` — the methods.
* `readWriteCallback` — the callback.
* `TorWrite.run` — how the coder writes a block.
* `torCompress`, `lzbenchTornadoCompress` — the two wrappers.
* `StoresWhole` — what is returned is the whole stream, or nothing when it does not fit.
* `storesWhole_iff` — when it is.
-/

namespace Lzbench

open Imperative

/-! ## Methods -/

/-- `PackMethod`. -/
structure PackMethod where
  number : ℕ
  encodingMethod : ℕ
  findTables : Bool
  hashRowWidth : ℕ
  hashsize : ℕ
  matchFinder : ℕ
  buffer : ℕ
  matchParser : ℕ
  hash3 : ℕ
  shift : ℕ
  updateStep : ℕ
  auxhashSize : ℕ
  auxhashRowWidth : ℕ
  fastBytes : ℕ
  deriving DecidableEq

namespace PackMethod

def kb : ℕ := 1024
def mb : ℕ := 1024 * kb
def gb : ℕ := 1024 * mb

def storing : ℕ := 0
def bytecoder : ℕ := 1
def bitcoder : ℕ := 2
def hufcoder : ℕ := 3
def aricoder : ℕ := 4

def greedy : ℕ := 1
def lazy : ℕ := 2
def optimal : ℕ := 4

def nonCachingMf : ℕ := 0
def cycledMf5 : ℕ := 5
def cycledMf7 : ℕ := 7
def cachingMf4 : ℕ := 14
def cachingMf5 : ℕ := 15
def cachingMf6 : ℕ := 16
def btMf5 : ℕ := 25

end PackMethod

open PackMethod in
/-- `std_Tornado_method`. -/
def stdTornadoMethod : List PackMethod :=
  [⟨0, storing, false, 0, 0, nonCachingMf, 1 * mb, 0, 0, 0, 999, 0, 0, 128⟩,
    ⟨1, bytecoder, false, 1, 16 * kb, nonCachingMf,
      1 * mb, PackMethod.greedy, 0, 0, 999, 0, 0, 128⟩,
    ⟨2, bitcoder, false, 1, 64 * kb, nonCachingMf, 2 * mb, PackMethod.greedy, 0, 0, 999, 0, 0, 128⟩,
    ⟨3, hufcoder, true, 2, 128 * kb, nonCachingMf, 4 * mb, PackMethod.greedy, 0, 0, 999, 0, 0, 128⟩,
    ⟨4, hufcoder, true, 2, 2 * mb, cachingMf4, 8 * mb, PackMethod.greedy, 0, 0, 999, 0, 0, 128⟩,
    ⟨5, aricoder, true, 4, 8 * mb, cachingMf4, 16 * mb, lazy, 1, 0, 999, 0, 0, 128⟩,
    ⟨6, aricoder, true, 8, 32 * mb, cachingMf4, 64 * mb, lazy, 1, 0, 4, 0, 0, 128⟩,
    ⟨7, aricoder, true, 32, 128 * mb, cycledMf5, 256 * mb, lazy, 2, 0, 1, 128 * kb, 4, 128⟩,
    ⟨8, aricoder, true, 128, 512 * mb, cycledMf5, 1 * gb, lazy, 2, 0, 1, 128 * kb, 4, 128⟩,
    ⟨9, aricoder, true, 256, 2 * gb, cycledMf5, 1 * gb, lazy, 2, 0, 1, 512 * kb, 4, 128⟩,
    ⟨10, aricoder, true, 256, 2 * gb, cycledMf7, 1 * gb, lazy, 2, 0, 1, 16 * mb, 128, 128⟩,
    ⟨11, aricoder, false, 8, 256 * mb, cachingMf5, 128 * mb, optimal, 1, 0, 1, 64 * kb, 1, 16⟩,
    ⟨12, aricoder, false, 16, 256 * mb, cachingMf5, 128 * mb, optimal, 1, 0, 1, 64 * kb, 1, 32⟩,
    ⟨13, aricoder, false, 24, 384 * mb, cachingMf5, 128 * mb, optimal, 1, 0, 1, 128 * kb, 1, 64⟩,
    ⟨14, aricoder, false, 32, 512 * mb, cachingMf6, 128 * mb, optimal, 2, 0, 1, 2 * mb, 2, 64⟩,
    ⟨15, aricoder, false, 64, 512 * mb, cachingMf6, 128 * mb, optimal, 2, 0, 1, 2 * mb, 4, 128⟩,
    ⟨16, aricoder, false, 128, 128 * mb, btMf5, 128 * mb, optimal, 2, 0, 1, 4 * mb, 8, 512⟩]

open PackMethod in
/-- `second_Tornado_method`. -/
def secondTornadoMethod : List PackMethod :=
  [⟨0, storing, false, 0, 0, nonCachingMf, 1 * mb, 0, 0, 0, 999, 0, 0, 128⟩,
    ⟨1, bytecoder, false, 1, 16 * kb, nonCachingMf,
      1 * mb, PackMethod.greedy, 0, 0, 999, 0, 0, 128⟩,
    ⟨2, bytecoder, false, 1, 128 * kb, nonCachingMf,
      2 * mb, PackMethod.greedy, 0, 0, 999, 0, 0, 128⟩,
    ⟨3, bytecoder, false, 1, 128 * kb, nonCachingMf,
      8 * mb, PackMethod.greedy, 0, 0, 999, 0, 0, 128⟩,
    ⟨4, bytecoder, false, 1, 4 * mb, nonCachingMf, 8 * mb, PackMethod.greedy, 0, 0, 999, 0, 0, 128⟩,
    ⟨5, bitcoder, false, 1, 128 * kb, nonCachingMf,
      8 * mb, PackMethod.greedy, 0, 0, 999, 0, 0, 128⟩,
    ⟨6, bitcoder, false, 1, 4 * mb, nonCachingMf, 8 * mb, PackMethod.greedy, 0, 0, 999, 0, 0, 128⟩,
    ⟨7, bitcoder, false, 1, 4 * mb, nonCachingMf, 32 * mb, PackMethod.greedy, 0, 0, 999, 0, 0, 128⟩]

/-- The entry that a method selects; `none` where it is outside of its table. -/
def torMethod (method : ℕ) : Option PackMethod :=
  if method ≥ 20 then secondTornadoMethod[method - 20]? else stdTornadoMethod[method]?

/-! ## The callback -/

/-- `FREEARC_OK`. -/
def freearcOk : ℤ := 0

/-- `FREEARC_ERRCODE_NOT_IMPLEMENTED`. -/
def freearcNotImplemented : ℤ := -8

/-- `LOOKAHEAD`. -/
def lookahead : ℕ := 1200

/-- `Results`; `inbuf` and `outbuf` are a memory and a pointer into it. -/
structure Results where
  inpos : ℕ
  inlen : ℕ
  outpos : ℕ
  outlen : ℕ
  inmem : Mem
  inbuf : ℕ
  outmem : Mem
  outbuf : ℕ

/-- The first argument of the callback, by the strings that it is compared with. -/
inductive CallbackWhat
  | init
  | read
  | write
  | quasiwrite
  | done
  | other
  deriving DecidableEq

/-- What the callback leaves: its result, the buffer it was given, the statistics. -/
structure CallbackResult where
  ret : ℤ
  buf : Mem
  results : Results

/-- `ReadWriteCallback`, on a buffer of its own.  A `memcpy` beyond `inlen` or `outlen` bytes is
undefined. -/
def readWriteCallback (what : CallbackWhat) (buf : Mem) (size : ℤ) (r : Results) :
    Except Stop CallbackResult :=
  match what with
  | .init => .ok ⟨freearcOk, buf, { r with inpos := 0, outpos := 0 }⟩
  | .read =>
    let size := if toUInt32 (r.inpos + size) > r.inlen then toInt32 (r.inlen - r.inpos) else size
    if size < 0 ∨ r.inpos + size > r.inlen then .error .undefined
    else .ok ⟨size, buf.copy 0 r.inmem (r.inbuf + r.inpos) size.toNat,
      { r with inpos := toUInt32 (r.inpos + size) }⟩
  | .write =>
    if toUInt32 (r.outpos + size) > r.outlen then .ok ⟨0, buf, r⟩
    else if size < 0 ∨ r.outpos + size > r.outlen then .error .undefined
    else .ok ⟨size, buf,
      { r with
        outmem := r.outmem.copy (r.outbuf + r.outpos) buf 0 size.toNat
        outpos := toUInt32 (r.outpos + size) }⟩
  | .quasiwrite => .ok ⟨freearcNotImplemented, buf, r⟩
  | .done => .ok ⟨freearcOk, buf, r⟩
  | .other => .ok ⟨freearcNotImplemented, buf, r⟩

/-! ## The coder's writes -/

/-- A block of output; its size is an `int`. -/
structure TorBlock where
  bytes : List UInt8
  length_lt : bytes.length < 2 ^ 31

/-- A write of the coder: by the macro `WRITE`, or by `OutputByteStream::finish`. -/
inductive TorWrite
  | write (block : TorBlock)
  | finish (block : TorBlock)

def TorWrite.block : TorWrite → TorBlock
  | write block => block
  | finish block => block

/-- The statistics, and the `errcode` of the output stream. -/
structure TorState where
  results : Results
  errcode : ℤ

/-- How the coder stops before its last write. -/
inductive TorExit
  | stop (e : Stop)
  /-- `goto finished`. -/
  | finished (s : TorState)

def callWrite (s : TorState) (block : TorBlock) : Except TorExit CallbackResult :=
  match readWriteCallback .write (.ofList block.bytes) block.bytes.length s.results with
  | .error e => .error (.stop e)
  | .ok r => .ok r

/-- One write.  The macro leaves out a block without bytes, and the stream writes nothing more
after an error. -/
def TorWrite.run (s : TorState) : TorWrite → Except TorExit TorState
  | write block =>
    if block.bytes.length ≠ 0 then do
      let r ← callWrite s block
      if r.ret < 0 then .error (.finished { s with results := r.results })
      else .ok { s with results := r.results }
    else .ok s
  | finish block =>
    if s.errcode = freearcOk then do
      let r ← callWrite s block
      .ok ⟨r.results, if r.ret > 0 then freearcOk else r.ret⟩
    else .ok s

/-- The method for an input, whose buffer need not be longer. -/
def PackMethod.forInput (m : PackMethod) (inlen : ℕ) : PackMethod :=
  { m with buffer := min m.buffer ((inlen + lookahead * 2) % 2 ^ 32) }

/-- `tor_compress` of the wrapper. -/
def torCompress (coder : PackMethod → List UInt8 → List TorWrite) (method : ℕ) (inmem : Mem)
    (inbuf inlen : ℕ) (outmem : Mem) (outbuf outlen : ℕ) : Except Stop (ℕ × Mem) :=
  match torMethod method with
  | none => .error .undefined
  | some m =>
    match (coder (m.forInput inlen) (inmem.bytes inbuf inlen)).foldlM TorWrite.run
        ⟨⟨0, inlen, 0, outlen, inmem, inbuf, outmem, outbuf⟩, freearcOk⟩ with
    | .error (.stop e) => .error e
    | .error (.finished s) => .ok (s.results.outpos, s.results.outmem)
    | .ok s => .ok (s.results.outpos, s.results.outmem)

/-- `lzbench_tornado_compress`, which hands over the level in 8 bits and the sizes in 32. -/
def lzbenchTornadoCompress (coder : PackMethod → List UInt8 → List TorWrite) (a : CodecArgs) :
    Except Stop (ℕ × Mem) :=
  torCompress coder (a.param1 % 2 ^ 8) a.inbuf a.inpos (toUInt32 a.insize) a.outbuf a.outpos
    (toUInt32 a.outsize)

/-- The blocks that the coder passes to the callback. -/
def torBlocks (coder : PackMethod → List UInt8 → List TorWrite) (m : PackMethod) (inmem : Mem)
    (inbuf inlen : ℕ) : List TorBlock :=
  (coder (m.forInput inlen) (inmem.bytes inbuf inlen)).map TorWrite.block

/-- The stream they make. -/
def torStream (blocks : List TorBlock) : List UInt8 := blocks.flatMap TorBlock.bytes

/-- What is asked of the wrapper: what it returns is the length of the whole stream, which is
stored, and it returns nothing when the stream does not fit. -/
def StoresWhole (coder : PackMethod → List UInt8 → List TorWrite) (method : ℕ) (m : PackMethod)
    (inmem : Mem) (inbuf inlen : ℕ) (outmem : Mem) (outbuf outlen : ℕ) : Prop :=
  let stream := torStream (torBlocks coder m inmem inbuf inlen)
  ∃ ret out, torCompress coder method inmem inbuf inlen outmem outbuf outlen = .ok (ret, out) ∧
    (0 < ret → out.bytes outbuf ret = stream) ∧ (outlen < stream.length → ret = 0)

/-! ## The output position -/

section Run

variable {r r' : Results} {s s' : TorState} {w : TorWrite}

/-- The statistics after a block was stored. -/
def Results.store (r : Results) (block : TorBlock) : Results :=
  { r with
    outmem := ((Patch.ofList block.bytes).shift (r.outbuf + r.outpos)).onto r.outmem
    outpos := r.outpos + block.bytes.length }

theorem Results.store_of_nil (r : Results) {block : TorBlock} (hnil : block.bytes = []) :
    r.store block = r := by
  have hsame : ((Patch.ofList ([] : List UInt8)).shift (r.outbuf + r.outpos)).onto r.outmem =
      r.outmem := by
    ext p
    simp [Patch.onto, Patch.shift, Patch.ofList]
  simp only [store, hnil, hsame, List.length_nil, Nat.add_zero]

/-- A block that fits is stored. -/
theorem callWrite_of_le {block : TorBlock} (hlen : s.results.outlen < 2 ^ 32)
    (hfit : s.results.outpos + block.bytes.length ≤ s.results.outlen) :
    callWrite s block = .ok ⟨block.bytes.length, .ofList block.bytes, s.results.store block⟩ := by
  have hsum : toUInt32 (s.results.outpos + (block.bytes.length : ℤ)) =
      s.results.outpos + block.bytes.length := by
    simp only [toUInt32]
    omega
  have hcopy : s.results.outmem.copy (s.results.outbuf + s.results.outpos) (.ofList block.bytes) 0
      block.bytes.length = ((Patch.ofList block.bytes).shift
        (s.results.outbuf + s.results.outpos)).onto s.results.outmem := by
    rw [Patch.copy_eq_onto, Mem.bytes_ofList]
  simp only [callWrite, readWriteCallback, hsum]
  rw [if_neg (by omega), if_neg (by omega)]
  simp only [Int.toNat_natCast, hcopy]
  rfl

/-- A block that does not fit is passed over, or written beyond the buffer where the position
wraps, which it does not do at the start. -/
theorem callWrite_of_lt {block : TorBlock}
    (hlong : s.results.outlen < s.results.outpos + block.bytes.length) :
    callWrite s block = .ok ⟨0, .ofList block.bytes, s.results⟩ ∨
      callWrite s block = .error (.stop .undefined) ∧ s.results.outpos ≠ 0 := by
  simp only [callWrite, readWriteCallback]
  by_cases hwrap : toUInt32 (s.results.outpos + (block.bytes.length : ℤ)) > s.results.outlen
  · left
    rw [if_pos hwrap]
  · right
    rw [if_neg hwrap, if_pos (by omega)]
    refine ⟨rfl, fun hzero => hwrap ?_⟩
    have hlt := block.length_lt
    rw [hzero] at hlong ⊢
    simp only [toUInt32]
    omega

/-- The state of the coder before a write: no error was seen, and the position is in the
buffer. -/
structure TorInv (r₀ : Results) (s : TorState) : Prop where
  errcode_eq : s.errcode = freearcOk
  outlen_eq : s.results.outlen = r₀.outlen
  outbuf_eq : s.results.outbuf = r₀.outbuf
  outpos_le : s.results.outpos ≤ r₀.outlen

theorem torInv_init (h : r.outpos ≤ r.outlen) : TorInv r ⟨r, freearcOk⟩ := ⟨rfl, rfl, rfl, h⟩

/-- What a write can do: store its block, pass over one that does not fit, or leave the
buffer. -/
theorem run_cases {r₀ : Results} (hlen : r₀.outlen < 2 ^ 32) (h : TorInv r₀ s) (w : TorWrite) :
    (s.results.outpos + w.block.bytes.length ≤ r₀.outlen ∧
        w.run s = .ok { s with results := s.results.store w.block }) ∨
      (r₀.outlen < s.results.outpos + w.block.bytes.length ∧
        (w.run s = .ok s ∨
          w.run s = .error (.stop .undefined) ∧ s.results.outpos ≠ 0)) := by
  have hcode := h.errcode_eq
  have hlen' : s.results.outlen < 2 ^ 32 := h.outlen_eq ▸ hlen
  rw [← h.outlen_eq]
  by_cases hfit : s.results.outpos + w.block.bytes.length ≤ s.results.outlen
  · refine Or.inl ⟨hfit, ?_⟩
    have hcall := callWrite_of_le hlen' hfit
    cases w with
    | write block =>
      by_cases hempty : block.bytes.length = 0
      · have hnil : block.bytes = [] := List.length_eq_zero_iff.mp hempty
        simp only [TorWrite.run, hempty, ne_eq, not_true_eq_false, if_false]
        rw [TorWrite.block, Results.store_of_nil _ hnil]
      · simp only [TorWrite.run, if_pos hempty]
        rw [TorWrite.block] at hcall
        rw [hcall]
        simp only [bind, Except.bind]
        rw [if_neg (by omega)]
        rfl
    | finish block =>
      rw [TorWrite.block] at hcall
      have herr : (if (block.bytes.length : ℤ) > 0 then freearcOk else block.bytes.length) =
          s.errcode := by
        rw [hcode]
        split
        · rfl
        · rw [freearcOk]
          omega
      simp only [TorWrite.run, if_pos hcode, hcall, bind, Except.bind, herr]
      rfl
  · have hlong : s.results.outlen < s.results.outpos + w.block.bytes.length := Nat.lt_of_not_le hfit
    have hroom := h.outpos_le
    rw [← h.outlen_eq] at hroom
    refine Or.inr ⟨hlong, ?_⟩
    have hcall := callWrite_of_lt hlong
    cases w with
    | write block =>
      have hsome : block.bytes.length ≠ 0 := by
        intro hzero
        rw [TorWrite.block, hzero] at hlong
        omega
      simp only [TorWrite.run, if_pos hsome]
      rw [TorWrite.block] at hcall
      cases hcall with
      | inl hcall =>
        rw [hcall]
        exact Or.inl rfl
      | inr hcall =>
        rw [hcall.1]
        exact Or.inr ⟨rfl, hcall.2⟩
    | finish block =>
      simp only [TorWrite.run, if_pos hcode]
      rw [TorWrite.block] at hcall
      cases hcall with
      | inl hcall =>
        rw [hcall]
        left
        have herr : (if (0 : ℤ) > 0 then freearcOk else 0) = s.errcode := hcode.symm
        simp only [bind, Except.bind, herr]
      | inr hcall =>
        rw [hcall.1]
        exact Or.inr ⟨rfl, hcall.2⟩

/-- A write keeps the coder's state right, and only adds to the output. -/
theorem TorInv.step {r₀ : Results} (hlen : r₀.outlen < 2 ^ 32) (h : TorInv r₀ s)
    (hs' : w.run s = .ok s') : TorInv r₀ s' ∧ s.results.outpos ≤ s'.results.outpos := by
  rcases run_cases hlen h w with ⟨hfit, hrun⟩ | ⟨-, hrun | ⟨hrun, -⟩⟩
  · cases hrun.symm.trans hs'
    exact ⟨⟨h.errcode_eq, h.outlen_eq, h.outbuf_eq, hfit⟩, Nat.le_add_right _ _⟩
  · cases hrun.symm.trans hs'
    exact ⟨h, le_rfl⟩
  · cases hrun.symm.trans hs'

theorem TorInv.run {r₀ : Results} (hlen : r₀.outlen < 2 ^ 32) (ws : List TorWrite)
    (h : TorInv r₀ s) (hs' : ws.foldlM TorWrite.run s = .ok s') :
    TorInv r₀ s' ∧ s.results.outpos ≤ s'.results.outpos := by
  induction ws generalizing s with
  | nil =>
    cases hs'
    exact ⟨h, le_rfl⟩
  | cons w ws ih =>
    obtain ⟨t, ht, hrun⟩ := bind_eq_ok.mp (List.foldlM_cons (m := Except TorExit) ▸ hs')
    obtain ⟨hinv, hle⟩ := h.step hlen ht
    obtain ⟨hinv', hle'⟩ := ih hinv hrun
    exact ⟨hinv', hle.trans hle'⟩

/-- No write ends the coder. -/
theorem TorInv.not_finished {r₀ : Results} (hlen : r₀.outlen < 2 ^ 32) (ws : List TorWrite)
    (h : TorInv r₀ s) (t : TorState) : ws.foldlM TorWrite.run s ≠ .error (.finished t) := by
  induction ws generalizing s with
  | nil =>
    intro heq
    cases heq
  | cons w ws ih =>
    rw [List.foldlM_cons]
    cases hw : w.run s with
    | ok s' => exact ih (h.step hlen hw).1
    | error e =>
      intro heq
      rcases run_cases hlen h w with ⟨-, hrun⟩ | ⟨-, hrun | ⟨hrun, -⟩⟩
      all_goals
        rw [hrun] at hw
        cases hw
      cases heq

/-- Blocks that fit together are stored one behind the other. -/
theorem TorInv.run_of_le {r₀ : Results} (hlen : r₀.outlen < 2 ^ 32) (ws : List TorWrite)
    (h : TorInv r₀ s)
    (hfit : s.results.outpos + (torStream (ws.map TorWrite.block)).length ≤ r₀.outlen) :
    ∃ s', ws.foldlM TorWrite.run s = .ok s' ∧ s'.results.outbuf = s.results.outbuf ∧
      s'.results.outpos = s.results.outpos + (torStream (ws.map TorWrite.block)).length ∧
      s'.results.outmem.bytes s.results.outbuf s'.results.outpos =
        s.results.outmem.bytes s.results.outbuf s.results.outpos ++
          torStream (ws.map TorWrite.block) := by
  induction ws generalizing s with
  | nil => exact ⟨s, rfl, rfl, rfl, by simp [torStream]⟩
  | cons w ws ih =>
    simp only [torStream, List.map_cons, List.flatMap_cons, List.length_append] at hfit
    rcases run_cases hlen h w with ⟨hle, hrun⟩ | ⟨hlt, -⟩
    · obtain ⟨s', hs', hbuf, hpos, hbytes⟩ := ih (h.step hlen hrun).1 (by
        simp only [Results.store, torStream]
        omega)
      refine ⟨s', ?_, hbuf, ?_, ?_⟩
      · rw [List.foldlM_cons, hrun]
        exact hs'
      · rw [hpos]
        simp only [Results.store, torStream, List.map_cons, List.flatMap_cons, List.length_append,
          Nat.add_assoc]
      · simp only [Results.store] at hbytes
        rw [hbytes, Patch.bytes_onto_append]
        simp [torStream]
    · omega

/-- While nothing is stored, no block but an empty one has fitted the buffer. -/
theorem TorInv.run_zero {r₀ : Results} (hlen : r₀.outlen < 2 ^ 32) (ws : List TorWrite)
    (h : TorInv r₀ s) (hzero : s.results.outpos = 0) :
    (∃ s', ws.foldlM TorWrite.run s = .ok s' ∧ s'.results.outpos = 0) ↔
      ∀ block ∈ ws.map TorWrite.block, block.bytes ≠ [] → r₀.outlen < block.bytes.length := by
  induction ws generalizing s with
  | nil => simpa using ⟨s, rfl, hzero⟩
  | cons w ws ih =>
    rw [List.map_cons, List.forall_mem_cons]
    rcases run_cases hlen h w with ⟨-, hrun⟩ | ⟨hlong, hrun⟩
    · have hinv := (h.step hlen hrun).1
      rw [foldlM_cons_of_ok ws hrun]
      by_cases hnil : w.block.bytes = []
      · have hempty : (s.results.store w.block).outpos = 0 := by
          rw [Results.store_of_nil _ hnil, hzero]
        simpa [hnil] using ih hinv hempty
      · -- what is stored stays stored, and it fitted
        have hpos : 0 < w.block.bytes.length := List.length_pos_iff.mpr hnil
        refine iff_of_false ?_ ?_
        · rintro ⟨s', hs', hzero'⟩
          have hle := (hinv.run hlen ws hs').2
          simp only [Results.store] at hle
          omega
        · rintro ⟨hlong, -⟩
          have hle := hinv.outpos_le
          have hlt := hlong hnil
          simp only [Results.store] at hle
          omega
    · rw [hzero, Nat.zero_add] at hlong
      have hok : w.run s = .ok s := hrun.resolve_right fun hbad => hbad.2 hzero
      rw [foldlM_cons_of_ok ws hok]
      simpa [hlong] using ih h hzero

end Run

/-! ## When the stream is stored -/

section Exact

variable {coder : PackMethod → List UInt8 → List TorWrite} {method : ℕ} {m : PackMethod}
  {inmem : Mem} {inbuf inlen : ℕ} {outmem : Mem} {outbuf outlen : ℕ}

/-- The wrapper is the run of the coder's writes. -/
theorem torCompress_eq (hm : torMethod method = some m) (hlen : outlen < 2 ^ 32)
    {ret : ℕ} {out : Mem} :
    torCompress coder method inmem inbuf inlen outmem outbuf outlen = .ok (ret, out) ↔
      ∃ s, (coder (m.forInput inlen) (inmem.bytes inbuf inlen)).foldlM TorWrite.run
          ⟨⟨0, inlen, 0, outlen, inmem, inbuf, outmem, outbuf⟩, freearcOk⟩ = .ok s ∧
        s.results.outpos = ret ∧ s.results.outmem = out := by
  let r : Results := ⟨0, inlen, 0, outlen, inmem, inbuf, outmem, outbuf⟩
  have hinv : TorInv r ⟨r, freearcOk⟩ := torInv_init (Nat.zero_le _)
  have hnot := hinv.not_finished hlen (coder (m.forInput inlen) (inmem.bytes inbuf inlen))
  simp only [torCompress, hm]
  cases hrun : (coder (m.forInput inlen) (inmem.bytes inbuf inlen)).foldlM TorWrite.run
      ⟨⟨0, inlen, 0, outlen, inmem, inbuf, outmem, outbuf⟩, freearcOk⟩ with
  | ok s => simp
  | error e =>
    cases e with
    | stop e => simp
    | finished s => exact absurd hrun (hnot s)

/-- The wrapper does what is asked of it exactly if the stream fits, or every block alone is
longer than the output. -/
theorem storesWhole_iff (hm : torMethod method = some m) (hlen : outlen < 2 ^ 32) :
    StoresWhole coder method m inmem inbuf inlen outmem outbuf outlen ↔
      (torStream (torBlocks coder m inmem inbuf inlen)).length ≤ outlen ∨
        ∀ block ∈ torBlocks coder m inmem inbuf inlen, block.bytes ≠ [] →
          outlen < block.bytes.length := by
  let r : Results := ⟨0, inlen, 0, outlen, inmem, inbuf, outmem, outbuf⟩
  have hinv : TorInv r ⟨r, freearcOk⟩ := torInv_init (Nat.zero_le _)
  have hzero := hinv.run_zero hlen (coder (m.forInput inlen) (inmem.bytes inbuf inlen)) rfl
  simp only [StoresWhole, torCompress_eq hm hlen]
  by_cases hfit : (torStream (torBlocks coder m inmem inbuf inlen)).length ≤ outlen
  · refine iff_of_true ?_ (Or.inl hfit)
    obtain ⟨s, hs, -, hpos, hbytes⟩ := hinv.run_of_le hlen
      (coder (m.forInput inlen) (inmem.bytes inbuf inlen)) ((Nat.zero_add _).trans_le hfit)
    refine ⟨_, _, ⟨s, hs, rfl, rfl⟩, fun _ => hbytes.trans (List.nil_append _), fun hlong => ?_⟩
    exact absurd hfit (Nat.not_le_of_lt hlong)
  · have hlong := Nat.lt_of_not_le hfit
    rw [or_iff_right hfit, torBlocks, ← hzero]
    constructor
    · rintro ⟨ret, out, ⟨s, hs, hret, -⟩, -, hnone⟩
      exact ⟨s, hs, hret.trans (hnone hlong)⟩
    · rintro ⟨s, hs, hpos⟩
      exact ⟨0, s.results.outmem, ⟨s, hs, hpos, rfl⟩, fun h => absurd h (lt_irrefl 0),
        fun _ => rfl⟩

end Exact

/-! ## Two blocks -/

/-- `put32`. -/
def put32 (v : ℕ) : List UInt8 :=
  [.ofNat v, .ofNat (v / 2 ^ 8), .ofNat (v / 2 ^ 16), .ofNat (v / 2 ^ 24)]

@[simp] theorem length_put32 (v : ℕ) : (put32 v).length = 4 := rfl

/-- The entry of method 1. -/
def bytecoderMethod : PackMethod := stdTornadoMethod[1]

/-- What the byte coder makes of an input in which no four bytes come twice: the first parameters,
sixteen literals after each word of flags, and the impossible match that marks the end. -/
def bytecoderStream (m : PackMethod) (input : List UInt8) : List UInt8 :=
  -- `tor_compress0` makes the buffer at least 32 KiB long, in steps of 4 KiB
  [1, 4] ++ put32 ((max m.buffer (32 * PackMethod.kb) + 4095) / 4096 * 4096) ++
    (List.range (input.length / 16)).flatMap
      (fun i => put32 0 ++ (input.drop (16 * i)).take 16) ++
    put32 (3 * 4 ^ (input.length % 16)) ++ input.drop (16 * (input.length / 16)) ++
    [255, 63, 254, 255, 255, 63, 251, 255, 255, 255]

theorem length_bytecoderStream (m : PackMethod) (input : List UInt8) :
    (bytecoderStream m input).length = input.length + 4 * (input.length / 16) + 20 := by
  have hgroup : ∀ i ∈ List.range (input.length / 16),
      (put32 0 ++ (input.drop (16 * i)).take 16).length = 20 := by
    intro i hi
    rw [List.mem_range] at hi
    simp only [List.length_append, length_put32, List.length_take, List.length_drop]
    omega
  have hgroups : ((List.range (input.length / 16)).flatMap
      (fun i => put32 0 ++ (input.drop (16 * i)).take 16)).length = input.length / 16 * 20 := by
    rw [List.length_flatMap, List.map_congr_left hgroup]
    simp
  simp only [bytecoderStream, List.length_append, hgroups, length_put32, List.length_drop,
    List.length_cons, List.length_nil]
  omega

/-- 300000 bytes, any four of which in a row tell where they are: a byte has the last two bits of
its place, and a digit of the others. -/
def numberedInput : Mem := fun p => UInt8.ofNat (p % 4 * 64 + p / 4 / 64 ^ (p % 4) % 64)

/-- The stream of method 1 for them. -/
def numberedStream : List UInt8 :=
  bytecoderStream (bytecoderMethod.forInput 300000) (numberedInput.bytes 0 300000)

theorem length_numberedStream : numberedStream.length = 375020 := by
  rw [numberedStream, length_bytecoderStream, Mem.length_bytes]

/-- What is flushed after the first 262144 bytes are read and all but the `lookahead` are coded:
whole pages, of which the last 512 bytes are not. -/
def flushedBlock : TorBlock where
  bytes := numberedStream.take 323584
  length_lt := by
    rw [List.length_take, length_numberedStream]
    omega

/-- What is left at the end. -/
def finishedBlock : TorBlock where
  bytes := numberedStream.drop 323584
  length_lt := by
    rw [List.length_drop, length_numberedStream]
    omega

/-- The writes of method 1. -/
def numberedWrites (_ : PackMethod) (_ : List UInt8) : List TorWrite :=
  [.finish flushedBlock, .finish finishedBlock]

@[simp] theorem length_flushedBlock : flushedBlock.bytes.length = 323584 := by
  rw [flushedBlock, List.length_take, length_numberedStream]
  rfl

@[simp] theorem length_finishedBlock : finishedBlock.bytes.length = 51436 := by
  rw [finishedBlock, List.length_drop, length_numberedStream]

/-- With room for both blocks the stream is stored. -/
theorem storesWhole_numbered :
    StoresWhole numberedWrites 1 bytecoderMethod numberedInput 0 300000 (fun _ => 0) 0 375020 := by
  refine (storesWhole_iff rfl (by decide)).mpr (Or.inl ?_)
  simp [torStream, torBlocks, numberedWrites, TorWrite.block]

/-- The first block does not fit, and only the second is returned. -/
theorem tornado_drops_block :
    (∃ out, torCompress numberedWrites 1 numberedInput 0 300000 (fun _ => 0) 0 300000 =
        .ok (51436, out)) ∧
      ¬ StoresWhole numberedWrites 1 bytecoderMethod numberedInput 0 300000 (fun _ => 0) 0
        300000 := by
  let r : Results := ⟨0, 300000, 0, 300000, numberedInput, 0, fun _ => 0, 0⟩
  have hinv : TorInv r ⟨r, freearcOk⟩ := torInv_init (Nat.zero_le _)
  have hlen : r.outlen < 2 ^ 32 := by decide
  have hflushed : (TorWrite.finish flushedBlock).block.bytes.length = 323584 :=
    length_flushedBlock
  have hfinished : (TorWrite.finish finishedBlock).block.bytes.length = 51436 :=
    length_finishedBlock
  have hdropped : (TorWrite.finish flushedBlock).run ⟨r, freearcOk⟩ = .ok ⟨r, freearcOk⟩ := by
    rcases run_cases hlen hinv (.finish flushedBlock) with ⟨hfit, -⟩ | ⟨-, hrun | ⟨-, hpos⟩⟩
    · rw [hflushed] at hfit
      exact absurd hfit (by decide)
    · exact hrun
    · exact absurd rfl hpos
  constructor
  · obtain ⟨s, hs, -, hpos, -⟩ := hinv.run_of_le hlen [.finish finishedBlock] (by
      rw [List.map_singleton, torStream, List.flatMap_singleton, hfinished]
      decide)
    rw [List.map_singleton, torStream, List.flatMap_singleton, hfinished] at hpos
    refine ⟨s.results.outmem, (torCompress_eq (m := bytecoderMethod) rfl hlen).mpr
      ⟨s, ?_, by simpa [r] using hpos, rfl⟩⟩
    rw [numberedWrites, foldlM_cons_of_ok _ hdropped]
    exact hs
  · rw [storesWhole_iff rfl (by decide)]
    rintro (hfit | hlong)
    · simp [torStream, torBlocks, numberedWrites, TorWrite.block] at hfit
    · have hsecond := hlong finishedBlock (by simp [torBlocks, numberedWrites, TorWrite.block])
        (List.ne_nil_of_length_pos (by simp))
      simp at hsecond

end Lzbench
